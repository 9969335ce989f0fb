import ShapeRecovery.Memory.Pointer
import ShapeRecovery.Proofs.Expr.Division

namespace ShapeRecovery

namespace Expr

/-- An expression as it may stand in an access. -/
def WellFormed (e : Expr) : Prop :=
  e = uncomputable ∨ ∃ w, HasBits e w

/-- Only the width that is read off an expression can be its own. -/
private theorem wellFormed_iff_bits {e : Expr} : WellFormed e ↔ e = uncomputable ∨ HasBits e e.bits := by
  refine or_congr_right ⟨fun ⟨w, typed⟩ => ?_, fun typed => ⟨_, typed⟩⟩
  rwa [typed.bits]

instance (e : Expr) : Decidable (WellFormed e) :=
  decidable_of_iff _ wellFormed_iff_bits.symm

theorem HasBits.wellFormed {e : Expr} {w : Int} (typed : HasBits e w) : WellFormed e :=
  .inr ⟨w, typed⟩

theorem WellFormed.text {e : Expr} (fit : WellFormed e) : ∃ t, e.text = .ok t := by
  rcases fit with rfl | ⟨w, typed⟩
  · exact ⟨_, rfl⟩
  · exact typed.text

theorem textList_total {es : List Expr} (fit : ∀ e ∈ es, WellFormed e) :
    ∃ ts, textList es = .ok ts := by
  rw [textList_eq_mapM]
  exact mapM_total fun e he => (fit e he).text

/-- A message for each expression can be written. -/
theorem sayTexts_total (c : Channel) (message : String → String) {es : List Expr}
    (fit : ∀ e ∈ es, WellFormed e) :
    Traced.outcome (es.forM fun e => do
      let t ← e.text
      Traced.say c (message t)) = .ok () := by
  refine Traced.outcome_forM fun e he => ?_
  obtain ⟨t, ht⟩ := (fit e he).text
  simp [ht]

/-- Division by a constant has a result in every case. -/
theorem WellFormed.quotRem_const (iw : Int) {num : Expr} {d w : Int} (fit : WellFormed num)
    (typed : HasBits (const d w) w) :
    ∃ q r, quotRem iw num (const d w) = .ok (q, r) ∧ WellFormed q ∧ WellFormed r := by
  rcases fit with rfl | ⟨v, hnum⟩
  · have pos := typed.pos
    have zero : WellFormed (const 0 w) := (hasBits_zero pos).wellFormed
    simp only [quotRem, divideBy, divideByAtom, commonWidth, width, immediateDivision?, ok_bind]
    by_cases unit : d = 1
    · exact ⟨_, _, by simp [isZero, isOne, unit, zero_eq pos], .inl rfl, zero⟩
    · exact ⟨_, _, by simp [isZero, isOne, unit, indivisible, zero_eq pos], zero, .inl rfl⟩
  · obtain ⟨⟨q, r⟩, run, divides⟩ := divideBy_spec iw typed hnum
    exact ⟨q, r, run, divides.quotient.wellFormed, divides.remainder.wellFormed⟩

end Expr

namespace Pointer

/-- Every indexing step has an index, and all indices are well formed. -/
def WellFormed : Pointer → Prop
  | object .. => True
  | load source | cast source => WellFormed source
  | index base idx => WellFormed base ∧ idx ≠ [] ∧ ∀ e ∈ idx, e.WellFormed

def decidableWellFormed : (p : Pointer) → Decidable p.WellFormed
  | object .. => .isTrue trivial
  | load source | cast source => decidableWellFormed source
  | index base idx =>
    have := decidableWellFormed base
    inferInstanceAs (Decidable (base.WellFormed ∧ idx ≠ [] ∧ ∀ e ∈ idx, e.WellFormed))

instance (p : Pointer) : Decidable p.WellFormed := decidableWellFormed p

variable {p : Pointer}

theorem WellFormed.text (fit : p.WellFormed) : ∃ t, p.text = .ok t := by
  induction p with
  | object name declared => exact ⟨_, rfl⟩
  | load source ih | cast source ih =>
    obtain ⟨t, ht⟩ := ih fit
    exact ⟨_, by simp only [Pointer.text, ht, ok_bind]; rfl⟩
  | index base idx ih =>
    obtain ⟨t, ht⟩ := ih fit.1
    obtain ⟨ts, hts⟩ := Expr.textList_total fit.2.2
    exact ⟨_, by simp only [Pointer.text, ht, hts, ok_bind]; rfl⟩

theorem WellFormed.stripSteps (fit : p.WellFormed) : p.stripSteps.WellFormed := by
  induction p with
  | object name declared => exact fit
  | load source ih => exact fit
  | cast source ih => exact ih fit
  | index base idx ih => exact ih fit.1

theorem WellFormed.accessedObject (fit : p.WellFormed) : p.accessedObject.WellFormed := by
  have strip := fit.stripSteps
  unfold Pointer.accessedObject
  split
  · next source same => simpa [same, WellFormed] using strip
  · exact strip

/-- The name of an object needs no more than its readable form. -/
theorem label_of_text {t : String} (h : p.text = .ok t) : ∃ name, p.label = .ok name := by
  cases p with
  | object name declared => exact ⟨_, rfl⟩
  | _ => exact ⟨t, h⟩

theorem WellFormed.outerSteps (fit : p.WellFormed) (limit : Option Nat) :
    ∀ idx ∈ p.outerSteps limit, idx ≠ [] ∧ ∀ e ∈ idx, e.WellFormed := by
  induction p generalizing limit with
  | index base idx ih =>
    obtain ⟨inner, here⟩ := fit
    have both {limit : Option Nat} : ∀ idx' ∈ base.outerSteps limit ++ [idx],
        idx' ≠ [] ∧ ∀ e ∈ idx', e.WellFormed := by
      intro idx' mem
      rcases List.mem_append.mp mem with mem | mem
      · exact ih inner limit idx' mem
      · rw [List.mem_singleton.mp mem]
        exact here
    match limit with
    | none => exact both
    | some 0 => simp [Pointer.outerSteps]
    | some (n + 1) => exact both
  | _ => simp [Pointer.outerSteps]

end Pointer

/-- Steps with indices have subscripts, which are indices. -/
theorem chainSubscripts_total {steps : List (List Expr)}
    (fit : ∀ idx ∈ steps, idx ≠ [] ∧ ∀ e ∈ idx, e.WellFormed) :
    ∃ subs, chainSubscripts steps = .ok subs ∧ ∀ e ∈ subs, e.WellFormed := by
  have single : ∀ idx ∈ steps, ∃ subs, stepSubscripts idx = .ok subs ∧
      ∀ e ∈ subs, e.WellFormed := by
    intro idx mem
    obtain ⟨some, indices⟩ := fit idx mem
    match idx with
    | [] => exact absurd rfl some
    | [e] => exact ⟨_, rfl, indices⟩
    | e :: e' :: es =>
      refine ⟨_, rfl, fun f hf => indices f ?_⟩
      split at hf
      · exact List.mem_cons_of_mem e hf
      · exact hf
  obtain ⟨parts, hparts, -, all⟩ := mapM_all single
  refine ⟨parts.flatten, by simp only [chainSubscripts, hparts, ok_bind]; rfl, fun e he => ?_⟩
  obtain ⟨subs, mem, he⟩ := List.mem_flatten.mp he
  exact all subs mem e he

end ShapeRecovery
