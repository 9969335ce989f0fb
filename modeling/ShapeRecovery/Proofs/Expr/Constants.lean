import ShapeRecovery.Proofs.Expr.Substitution

namespace ShapeRecovery.Expr

variable {iw w a b v : Int}

/-- A constant as an unsigned number. -/
def constantOf : Expr → Int
  | const v b => readUnsigned b v
  | _ => 0

/-- A constant of any width is brought to the width at hand as an unsigned number. -/
theorem resize_constant (pos : 0 < w) (typed : HasBits (const v b) b) :
    resize w (const v b) = .ok (const ((constantOf (const v b)).bmod (Word.modulus w)) w) := by
  have bpos := typed.pos
  have inRange := typed.const_inRange
  have low (le : w ≤ b) : v.bmod (Word.modulus w) = (readUnsigned b v).bmod (Word.modulus w) := by
    refine Word.eq_bmod_of_cast_eq pos (Word.inRange_bmod pos v) ?_
    rw [Word.cast_bmod, Word.cast_readUnsigned le]
  simp only [resize, width, ok_bind, pure_eq_ok, constantOf]
  split
  · next same =>
    subst same
    rw [← low le_rfl, Word.bmod_of_inRange pos inRange]
  · next other =>
    split
    · next narrower =>
      simp [convert, if_neg other, checkDirection, narrower, ofInt_eq pos, low narrower.le]
    · next wider =>
      have wider : b < w := by omega
      simp [convert, if_neg other, checkDirection, wider, Word.unsigned_eq bpos, ofInt_eq pos,
        readUnsigned]

/-- Constants are multiplied as words. -/
theorem productOf_constants (iw : Int) (first : HasBits (const a w) w) (second : HasBits (const b w) w) :
    productOf iw [const a w, const b w] = .ok (const ((a * b).bmod (Word.modulus w)) w) := by
  have typed : AllBits [const a w, const b w] w := by simpa using ⟨first, second⟩
  obtain ⟨r, run, same⟩ := productOf_spec iw (by simp) typed
  obtain ⟨v, rfl⟩ : ∃ v, r = const v w := by
    obtain ⟨m, fuel⟩ : ∃ m, fuelFor .product [const a w, const b w] = m + 1 := ⟨_, rfl⟩
    have step := run
    rw [productOf, fuel, productWithin] at step
    rcases productStep_cases step with ⟨mem, -⟩ | ⟨n, u, -, made⟩ | ⟨-, -, -, -, -, -, -, some, -⟩
    · simp at mem
    · obtain ⟨v, -, made⟩ := bind_eq_ok.mp made
      cases made
      obtain rfl := same.hasBits.const_bits
      exact ⟨v, rfl⟩
    · exact absurd rfl some
  have built : ∀ e ∈ [const a w, const b w], BuiltOver (fun _ => True) (fun _ => False) e := by
    simpa using ⟨.const a w, .const b w⟩
  have gap : productGap iw [const a w, const b w] default = 0 :=
    productGap_eq_zero iw (by simp) typed built fun l m none _ => none.elim
  have total := same.value_single_product default
  rw [gap] at total
  have residue : (v : ZMod (Word.modulus w)) = (a * b : Int) := by simpa using total
  rw [run, Word.eq_bmod_of_cast_eq first.pos same.hasBits.const_inRange residue]

end ShapeRecovery.Expr
