import ShapeRecovery.Proofs.Expr.Product

namespace ShapeRecovery.Expr

/-- Nested steps that a sum needs: its operands weigh less with every second one. -/
def sumCost (ops : List Expr) : Nat := 3 * weightSum ops + 2 * padding ops

def productCost (ops : List Expr) : Nat := 3 * weightProduct ops + 1

variable {w : Int} {ops : List Expr}

theorem sumCost_le (ops : List Expr) : sumCost ops ≤ 3 * weightSum ops + 2 := by
  unfold sumCost padding
  split <;> omega

theorem sumCost_of_several (several : 2 ≤ ops.length) : sumCost ops = 3 * weightSum ops := by
  simp [sumCost, padding, Nat.not_lt.mpr several]

theorem sumCost_lt_fuelFor (ops : List Expr) : sumCost ops < fuelFor .sum ops := by
  have le := sumCost_le ops
  simp only [fuelFor, weight]
  omega

theorem productCost_lt_fuelFor (ops : List Expr) : productCost ops < fuelFor .product ops := by
  simp only [productCost, fuelFor, weight]
  omega

/-- With more fuel than they cost, sums and products have results. -/
theorem within_spec (iw : Int) (fuel : Nat) :
    (∀ ops, ops ≠ [] → AllBits ops w → sumCost ops < fuel → ∃ r,
      sumWithin iw fuel ops = .ok r ∧ Same .sum w (sumGapWithin iw fuel ops) ops [r]) ∧
    (∀ ops, ops ≠ [] → AllBits ops w → productCost ops < fuel → ∃ r,
      productWithin iw fuel ops = .ok r ∧
        Same .product w (productGapWithin iw fuel ops) ops [r]) := by
  induction fuel with
  | zero => exact ⟨fun _ _ _ h => absurd h (by omega), fun _ _ _ h => absurd h (by omega)⟩
  | succ fuel ih =>
    obtain ⟨sums, products⟩ := ih
    refine ⟨fun ops some typed enough => ?_, fun ops some typed enough => ?_⟩
    · refine sumStep_spec iw some typed (fun es hes ht light => ?_) (fun es hes ht light => ?_)
      · refine sums es hes ht ?_
        have le := sumCost_le es
        simp only [sumCost] at enough
        omega
      · refine products es hes ht ?_
        have length := List.length_pos_of_ne_nil some
        simp only [sumCost, padding] at enough
        simp only [productCost]
        split at enough <;> omega
    · simp only [productCost] at enough products
      refine productStep_spec iw some typed (fun es hes ht light => ?_) (fun es hes ht light => ?_)
      · refine sums es (List.ne_nil_of_length_pos (by omega)) ht ?_
        rw [sumCost_of_several hes]
        omega
      · exact products es hes ht (by omega)

/-- A sum of operands of one width has a result, which stands for the operands up to the gap. -/
theorem sumOf_spec (iw : Int) (some : ops ≠ []) (typed : AllBits ops w) :
    ∃ r, sumOf iw ops = .ok r ∧ Same .sum w (sumGap iw ops) ops [r] :=
  (within_spec iw _).1 ops some typed (sumCost_lt_fuelFor ops)

theorem productOf_spec (iw : Int) (some : ops ≠ []) (typed : AllBits ops w) :
    ∃ r, productOf iw ops = .ok r ∧ Same .product w (productGap iw ops) ops [r] :=
  (within_spec iw _).2 ops some typed (productCost_lt_fuelFor ops)

/-- Nothing is confused where all loops have made the same number of iterations, as where there is
only one loop. -/
theorem sumGap_eq_zero (iw : Int) (some : ops ≠ []) (typed : AllBits ops w) {L : Loop → Prop}
    {ρ : Valuation} (within : ∀ e ∈ ops, BuiltOver (fun _ => True) L e) (inStep : InStep L ρ) :
    sumGap iw ops ρ = 0 := by
  obtain ⟨r, -, same⟩ := sumOf_spec iw some typed
  exact same.noGap L ρ within inStep

theorem productGap_eq_zero (iw : Int) (some : ops ≠ []) (typed : AllBits ops w) {L : Loop → Prop}
    {ρ : Valuation} (within : ∀ e ∈ ops, BuiltOver (fun _ => True) L e) (inStep : InStep L ρ) :
    productGap iw ops ρ = 0 := by
  obtain ⟨r, -, same⟩ := productOf_spec iw some typed
  exact same.noGap L ρ within inStep

/-- The value of a sum is the total of its operands exactly where the recurrences that are confused
on the way make up no difference. -/
theorem sumOf_value_iff (iw : Int) (some : ops ≠ []) (typed : AllBits ops w) :
    ∃ r, sumOf iw ops = .ok r ∧ HasBits r w ∧ ∀ ρ,
      (value w ρ r = (ops.map (value w ρ)).sum ↔ (Word.modulus w : Int) ∣ sumGap iw ops ρ) := by
  obtain ⟨r, hr, same⟩ := sumOf_spec iw some typed
  refine ⟨r, hr, same.hasBits, fun ρ => ?_⟩
  rw [same.value_single ρ, add_eq_left]
  exact ZMod.intCast_zmod_eq_zero_iff_dvd _ _

def outerLoop : Loop := ⟨⟨"i", 1⟩, 0⟩

def innerLoop : Loop := ⟨⟨"j", 2⟩, 1⟩

/-- Two recurrences of the inner loop whose steps cancel: the iterations of the outer loop are left. -/
def cancelling : List Expr :=
  [recurrence (recurrence (const 0 64) (const 1 64) outerLoop) (const 1 64) innerLoop,
    recurrence (const 0 64) (const (-1) 64) innerLoop]

theorem cancelling_typed : AllBits cancelling 64 := by decide +kernel

theorem sumOf_value_iff_cancelling : cancelling ≠ [] ∧ AllBits cancelling 64 ∧
    ∃ r, sumOf 64 cancelling = .ok r ∧ HasBits r 64 ∧ ∀ ρ,
      (value 64 ρ r = (cancelling.map (value 64 ρ)).sum ↔
        (Word.modulus 64 : Int) ∣ sumGap 64 cancelling ρ) :=
  ⟨by decide, cancelling_typed, sumOf_value_iff 64 (by decide) cancelling_typed⟩

/-- The sum counts the inner loop where its operands count the outer one. -/
theorem sumOf_cancelling_wrong : AllBits cancelling 64 ∧
    ∃ r ρ, sumOf 64 cancelling = .ok r ∧
      value 64 ρ r ≠ (cancelling.map (value 64 ρ)).sum := by
  refine ⟨cancelling_typed, recurrence (const 0 64) (const 1 64) innerLoop,
    ⟨fun _ _ => 0, fun l => l.depth, fun _ _ => 0⟩, by decide +kernel, ?_⟩
  rw [← value_sum, ne_eq, value_eq_iff]
  decide

/-- What is missed is the difference between the two counts. -/
example (ρ : Valuation) :
    sumGap 64 cancelling ρ = ρ.count innerLoop - ρ.count outerLoop := by
  have run : sumGap 64 cancelling =
      0 + (0 + (0 + 0) + (0 + 0 + 0 + confusion (const 1 64) outerLoop outerLoop) +
        (0 + 0 + 0) * iterations innerLoop + 0) +
      (0 + 0 + 0 + confusion (const 1 64) outerLoop innerLoop) := rfl
  simp [run, meaning]

end ShapeRecovery.Expr
