import ShapeRecovery.Proofs.Expr.LinearDivision

namespace ShapeRecovery.Expr

/-- `f` is `e` or, at any depth of products, a factor of it. -/
inductive IsFactor (f : Expr) : Expr → Prop
  | self : IsFactor f f
  | inside {g : Expr} {es : List Expr} (mem : g ∈ es) (part : IsFactor f g) : IsFactor f (product es)

variable {L : Loop → Prop} {ρ : Valuation} {num den : Expr} {es : List Expr} {iw w : Int}

/-- The rest of the dividend is linear in the unknown values that `den` is a multiple of. -/
def LinearBeside (den num : Expr) : Prop :=
  ∀ s b, IsFactor (unknown s b) den → residualDegree s b num ≤ 1

private theorem LinearBeside.noLarger {q : Expr} (linear : LinearBeside den num) (less : NoLarger num q) :
    LinearBeside den q := fun s b factor => (less.residual s b).trans (linear s b factor)

theorem LinearBeside.factor {f : Expr} (linear : LinearBeside (product es) num) (mem : f ∈ es) :
    LinearBeside f num := fun s b factor => linear s b (.inside mem factor)

/-- Where loops are in step, a division misses nothing of a dividend that is linear beside the divisor. -/
theorem divisionGap_inStep (iw : Int) (inStep : InStep L ρ) (hden : HasBits den w) (hnum : HasBits num w)
    (within : Within L num) (linear : LinearBeside den num) :
    (divisionGap iw den num ρ : ZMod (Word.modulus w)) = 0 := by
  induction hden using HasBits.divisor_induction generalizing num with
  | atom typed whole =>
    rw [divisionGap_atom whole]
    refine atomGap_inStep inStep typed hnum within ?_
    rintro s rfl
    exact linear s _ .self
  | @product es w several parts ih =>
    -- Each of the divisions leaves a quotient of no greater degree for the next one.
    have chain : ∀ fs, fs ⊆ es → ∀ num, HasBits num w → Within L num → LinearBeside (product es) num →
        (chainGap iw fs num ρ : ZMod (Word.modulus w)) = 0 := by
      intro fs
      induction fs with
      | nil => simp [chainGap]
      | cons f fs rest =>
        intro sub num hnum within linear
        have mem : f ∈ es := sub (by simp)
        obtain ⟨qr, run, divides⟩ := divideBy_spec iw (parts f mem) hnum
        have less := NoLarger.divideBy (parts f mem) hnum run
        have kept := ((hereditary_within iw L).divideBy (parts f mem) hnum within run).1
        have after := rest (fun g hg => sub (by simp [hg])) qr.1 divides.quotient kept (linear.noLarger less)
        have here := ih f mem hnum within (linear.factor mem)
        simp only [chainGap, run, gapAfter_ok, Pi.add_apply, Pi.mul_apply, Int.cast_add, Int.cast_mul,
          here, after, mul_zero, add_zero]
    obtain ⟨o, now, -⟩ := immediateDivision_spec hnum (product es)
    have all := chain es (List.Subset.refl es) num hnum within linear
    simp only [divisionGap, hnum.leads, now, gapAfter_ok]
    cases o with
    | some qr => simp
    | none =>
      cases divided : divideByAll? iw es num with
      | error _ => simp [gapAfter]
      | ok o =>
        cases o with
        | some q => simpa using all
        | none => simp

/-- The division identity holds exactly where nothing was missed; and where loops are in step, nothing is
missed of a dividend that is linear beside the divisor. -/
theorem quotRem_identity_iff (iw : Int) (hnum : HasBits num w) (hden : HasBits den w) :
    ∃ q r, quotRem iw num den = .ok (q, r) ∧ HasBits q w ∧ HasBits r w ∧
      (∀ ρ, value w ρ num = value w ρ q * value w ρ den + value w ρ r ↔
        (Word.modulus w : Int) ∣ divisionGap iw den num ρ) ∧
      ∀ L ρ, InStep L ρ → Within L num → LinearBeside den num →
        value w ρ num = value w ρ q * value w ρ den + value w ρ r := by
  obtain ⟨⟨q, r⟩, hqr, divides⟩ := divideBy_spec iw hden hnum
  refine ⟨q, r, hqr, divides.quotient, divides.remainder, fun ρ => ?_, fun L ρ inStep within linear => ?_⟩
  · rw [divides.total ρ, add_eq_left]
    exact ZMod.intCast_zmod_eq_zero_iff_dvd _ _
  · rw [divides.total ρ, divisionGap_inStep iw inStep hden hnum within linear, add_zero]

/-- A product that is linear in `x` and vanishes for `x = 0` because of its width. -/
def lifted : Expr :=
  product [const (2 ^ 32) 64, unknown ⟨"y", 2⟩ 64, sum [const (2 ^ 32) 64, unknown ⟨"x", 1⟩ 64]]

theorem lifted_typed : HasBits lifted 64 := by decide +kernel

private theorem lifted_linear : LinearBeside (unknown ⟨"x", 1⟩ 64) lifted := by
  intro s b factor
  cases factor
  decide +kernel

theorem quotRem_identity_iff_lifted : HasBits lifted 64 ∧ HasBits (unknown ⟨"x", 1⟩ 64) 64 ∧
    quotRem 64 lifted (unknown ⟨"x", 1⟩ 64) =
      .ok (product [const (2 ^ 32) 64, unknown ⟨"y", 2⟩ 64], const 0 64) ∧
    ∀ ρ, value 64 ρ lifted =
      value 64 ρ (product [const (2 ^ 32) 64, unknown ⟨"y", 2⟩ 64]) * value 64 ρ (unknown ⟨"x", 1⟩ 64) +
        value 64 ρ (const 0 64) := by
  have run : quotRem 64 lifted (unknown ⟨"x", 1⟩ 64) =
      .ok (product [const (2 ^ 32) 64, unknown ⟨"y", 2⟩ 64], const 0 64) := by decide +kernel
  have unknown : HasBits (unknown ⟨"x", 1⟩ 64) 64 := .unknown (by decide)
  refine ⟨lifted_typed, unknown, run, fun ρ => ?_⟩
  obtain ⟨q, r, run', -, -, -, exact⟩ := quotRem_identity_iff 64 lifted_typed unknown
  cases run.symm.trans run'
  exact exact (fun _ => False) ρ (fun _ _ none => none.elim) (by simp [lifted]) lifted_linear

/-- A product that vanishes for `x = 0` without being a multiple of `x`: a third of `x`, rounded
down. -/
def thirds : Expr := product [unknown ⟨"z", 2⟩ 64, quotient (unknown ⟨"x", 1⟩ 64) (const 3 64)]

private theorem thirds_typed : HasBits thirds 64 := by decide +kernel

/-- The product is lost: the quotient and the remainder are both zero. -/
theorem quotRem_thirds_wrong : HasBits thirds 64 ∧ HasBits (unknown ⟨"x", 1⟩ 64) 64 ∧
    ∃ q r ρ, quotRem 64 thirds (unknown ⟨"x", 1⟩ 64) = .ok (q, r) ∧
      value 64 ρ thirds ≠ value 64 ρ q * value 64 ρ (unknown ⟨"x", 1⟩ 64) + value 64 ρ r := by
  refine ⟨thirds_typed, .unknown (by decide), const 0 64, const 0 64,
    ⟨fun s _ => if s.name = "x" then 3 else 1, fun _ => 0, fun _ _ => 0⟩, by decide +kernel, ?_⟩
  have zero : ∀ ρ, value 64 ρ (const 0 64) * value 64 ρ (unknown ⟨"x", 1⟩ 64) +
      value 64 ρ (const 0 64) = value 64 ρ (const 0 64) := fun ρ => by simp
  rw [zero, ne_eq, value_eq_iff]
  decide

end ShapeRecovery.Expr
