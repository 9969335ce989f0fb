import ShapeRecovery.Proofs.Expr.LinearDivision
import ShapeRecovery.Proofs.Expr.LoopFree

namespace ShapeRecovery.Expr

/-- Recurrences occur in `e` at the root only, and there in the starts and steps of recurrences. -/
inductive Nested : Expr → Prop
  | loopFree {e : Expr} (free : LoopFree e) : Nested e
  | recurrence {a b : Expr} {l : Loop} (start : Nested a) (step : Nested b) : Nested (.recurrence a b l)

variable {num q r : Expr} {w d iw : Int} {ρ : Valuation}

/-- The starts and steps of a nest are divided each for itself, and nothing is missed of them. -/
private theorem atomGap_of_nested (hden : HasBits (const d w) w) (hnum : HasBits num w) (nested : Nested num)
    (ρ : Valuation) : (atomGap iw (const d w) num ρ : ZMod (Word.modulus w)) = 0 := by
  induction nested with
  | loopFree free => exact atomGap_inStep (fun _ _ none => none.elim) hden hnum free (by simp)
  | recurrence _ _ first second =>
    obtain ⟨start, step⟩ := HasBits.recurrence_iff.mp hnum
    refine atomGap_of_later hnum fun later => ?_
    rw [atomGap_recurrence hnum later]
    simp [first start, second step]

/-- Where a constant divides a nest without a remainder, the nest is the quotient times the constant. -/
theorem quotRem_exact (hden : HasBits (const d w) w) (hnum : HasBits num w) (nested : Nested num)
    (run : quotRem iw num (const d w) = .ok (q, r)) (exact : r.isZero = true) (ρ : Valuation) :
    value w ρ num = value w ρ q * value w ρ (const d w) := by
  have total := (Divides.of_run hnum hden run).total ρ
  have gap : (divisionGap iw (const d w) num ρ : ZMod (Word.modulus w)) = 0 :=
    atomGap_of_nested hden hnum nested ρ
  simpa [gap, value_of_isZero w ρ exact] using total

end ShapeRecovery.Expr
