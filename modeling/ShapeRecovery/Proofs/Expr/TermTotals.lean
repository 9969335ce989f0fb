import ShapeRecovery.Expr.Maximum
import ShapeRecovery.Proofs.Expr.SettledSteps

namespace ShapeRecovery.Expr

/-- How often the base `b` is in a term that is no constant and no recurrence. -/
def coefficient? (b : Expr) : Expr → Option Int
  | const .. | recurrence .. => none
  | e =>
    match asMultiple e with
    | .ok (c, b') => if b' = b then some c else none
    | .error _ => none

def coefficientsOf (b : Expr) (es : List Expr) : List Int := es.filterMap (coefficient? b)

/-- The start and step of a recurrence over `l`. -/
def partsOver? (l : Loop) : Expr → Option (Expr × Expr)
  | recurrence start step m => if m = l then some (start, step) else none
  | _ => none

def partsOf (l : Loop) (es : List Expr) : List (Expr × Expr) := es.filterMap (partsOver? l)

theorem constantsOf_append (es fs : List Expr) :
    constantsOf (es ++ fs) = constantsOf es ++ constantsOf fs := by
  induction es with
  | nil => rfl
  | cons e es ih => cases e <;> simp [constantsOf, ih]

@[simp] theorem coefficientsOf_append (b : Expr) (es fs : List Expr) :
    coefficientsOf b (es ++ fs) = coefficientsOf b es ++ coefficientsOf b fs :=
  List.filterMap_append

@[simp] theorem partsOf_append (l : Loop) (es fs : List Expr) :
    partsOf l (es ++ fs) = partsOf l es ++ partsOf l fs :=
  List.filterMap_append

@[simp] theorem coefficientsOf_const (b : Expr) (v w : Int) : coefficientsOf b [const v w] = [] := rfl

@[simp] theorem coefficientsOf_recurrence (b start step : Expr) (l : Loop) :
    coefficientsOf b [recurrence start step l] = [] := rfl

@[simp] theorem partsOf_const (l : Loop) (v w : Int) : partsOf l [const v w] = [] := rfl

namespace Terms

private theorem mem_addMultiple_iff {b d : Expr} {c k : Int} {ms : List (Expr × Int)}
    (distinct : (ms.map Prod.fst).Nodup) : (d, k) ∈ addMultiple b c ms ↔
      if d = b then (b ∉ ms.map Prod.fst ∧ k = c) ∨ ∃ c', (b, c') ∈ ms ∧ k = c' + c
      else (d, k) ∈ ms := by
  induction ms with
  | nil =>
    by_cases same : d = b <;> simp [addMultiple, same]
  | cons m ms ih =>
    obtain ⟨e, c'⟩ := m
    obtain ⟨fresh, distinct⟩ := List.nodup_cons.mp distinct
    have rest := ih distinct
    unfold addMultiple
    grind

private theorem mem_addRecurrence_iff {l m : Loop} {p : Expr × Expr} {ps : List (Expr × Expr)}
    {gs : List (Loop × List (Expr × Expr))} (distinct : (gs.map Prod.fst).Nodup) :
    (m, ps) ∈ addRecurrence l p gs ↔
      if m = l then (l ∉ gs.map Prod.fst ∧ ps = [p]) ∨ ∃ qs, (l, qs) ∈ gs ∧ ps = qs ++ [p]
      else (m, ps) ∈ gs := by
  induction gs with
  | nil =>
    by_cases same : m = l <;> simp [addRecurrence, same]
  | cons g gs ih =>
    obtain ⟨l', qs⟩ := g
    obtain ⟨fresh, distinct⟩ := List.nodup_cons.mp distinct
    have rest := ih distinct
    unfold addRecurrence
    grind

/-- The terms `t` hold the totals of the operands `es`. -/
structure Totals (es : List Expr) (t : Terms) : Prop where
  constant : t.constant = (constantsOf es).sum
  distinct : (t.multiples.map Prod.fst).Nodup
  loops : (t.recurrences.map Prod.fst).Nodup
  multiples : ∀ b c, (b, c) ∈ t.multiples ↔ coefficientsOf b es ≠ [] ∧ c = (coefficientsOf b es).sum
  recurrences : ∀ l ps, (l, ps) ∈ t.recurrences ↔ partsOf l es ≠ [] ∧ ps = partsOf l es

private theorem Totals.mem_keys {es : List Expr} {t : Terms} (h : Totals es t) (b : Expr) :
    b ∈ t.multiples.map Prod.fst ↔ coefficientsOf b es ≠ [] := by
  simp [h.multiples]

private theorem Totals.mem_loops {es : List Expr} {t : Terms} (h : Totals es t) (l : Loop) :
    l ∈ t.recurrences.map Prod.fst ↔ partsOf l es ≠ [] := by
  simp [h.recurrences]

/-- Every base is what an operand is a multiple of. -/
theorem Totals.exists_multiple {es : List Expr} {t : Terms} (h : Totals es t) {b : Expr} {c : Int}
    (mem : (b, c) ∈ t.multiples) :
    ∃ e ∈ es, e.isConst = false ∧ e.isRecurrence = false ∧ ∃ k, asMultiple e = .ok (k, b) := by
  obtain ⟨some, -⟩ := (h.multiples b c).mp mem
  obtain ⟨k, hk⟩ := List.exists_mem_of_ne_nil _ some
  obtain ⟨e, he, part⟩ := List.mem_filterMap.mp hk
  unfold coefficient? at part
  split at part
  · cases part
  · cases part
  · next still other =>
    split at part
    · next k' b' multiple =>
      obtain rfl : b' = b := by
        by_contra apart
        simp [apart] at part
      refine ⟨e, he, ?_, ?_, k', multiple⟩
      · cases e with
        | const v w => exact absurd rfl (still v w)
        | _ => rfl
      · cases e with
        | recurrence start step l => exact absurd rfl (other start step l)
        | _ => rfl
    · cases part

/-- Every part that is filed under a loop is one of a recurrence among the operands. -/
theorem Totals.mem_recurrences {es : List Expr} {t : Terms} (h : Totals es t) {l : Loop}
    {ps : List (Expr × Expr)} (mem : (l, ps) ∈ t.recurrences) :
    ps ≠ [] ∧ ∀ p ∈ ps, recurrence p.1 p.2 l ∈ es := by
  obtain ⟨some, rfl⟩ := (h.recurrences l ps).mp mem
  refine ⟨some, fun p hp => ?_⟩
  obtain ⟨e, he, part⟩ := List.mem_filterMap.mp hp
  unfold partsOver? at part
  split at part
  · split at part
    · next same =>
      cases part
      exact same ▸ he
    · cases part
  · cases part

private theorem totals_empty : Totals [] empty where
  constant := rfl
  distinct := by simp [empty]
  loops := by simp [empty]
  multiples := by simp [empty, coefficientsOf]
  recurrences := by simp [empty, partsOf]

section insert

variable {es : List Expr} {t : Terms} (h : Totals es t)
include h

theorem Totals.insert_const (v w : Int) :
    Totals (es ++ [const v w]) { t with constant := t.constant + v } where
  constant := by simp [constantsOf_append, constantsOf, h.constant]
  distinct := h.distinct
  loops := h.loops
  multiples b c := by simpa using h.multiples b c
  recurrences l ps := by simpa using h.recurrences l ps

theorem Totals.insert_recurrence (a b : Expr) (l : Loop) :
    Totals (es ++ [recurrence a b l])
      { t with recurrences := addRecurrence l (a, b) t.recurrences } where
  constant := by simp [constantsOf_append, constantsOf, h.constant]
  distinct := h.distinct
  loops := addRecurrence_nodup h.loops
  multiples b c := by simpa using h.multiples b c
  recurrences m ps := by
    rw [mem_addRecurrence_iff h.loops, h.mem_loops]
    simp only [h.recurrences]
    by_cases same : m = l
    · subst same
      have here : partsOf m [recurrence a b m] = [(a, b)] := by simp [partsOf, partsOver?]
      simp only [partsOf_append, here]
      by_cases none : partsOf m es = []
      · simp [none]
      · simp [none]
    · have here : partsOf m [recurrence a b l] = [] := by simp [partsOf, partsOver?, Ne.symm same]
      simp [same, here]

theorem Totals.insert_multiple {e b : Expr} {c : Int} (other : e.isConst = false)
    (still : e.isRecurrence = false) (part : asMultiple e = .ok (c, b)) :
    Totals (es ++ [e]) { t with multiples := addMultiple b c t.multiples } := by
  have coefficient (d : Expr) : coefficientsOf d [e] = if b = d then [c] else [] := by
    have single : coefficient? d e = if b = d then some c else none := by
      cases e with
      | const v w => cases other
      | recurrence a b l => cases still
      | _ => simp only [coefficient?, part]
    by_cases same : b = d <;> simp [coefficientsOf, single, same]
  have noConstant : constantsOf [e] = [] := by
    cases e with
    | const v w => cases other
    | _ => rfl
  have noPart (l : Loop) : partsOf l [e] = [] := by
    cases e with
    | recurrence a b l => cases still
    | _ => rfl
  exact {
    constant := by simp [constantsOf_append, noConstant, h.constant]
    distinct := addMultiple_nodup h.distinct b c
    loops := h.loops
    multiples := by
      intro d k
      rw [mem_addMultiple_iff h.distinct, h.mem_keys, coefficientsOf_append, coefficient]
      simp only [h.multiples]
      by_cases same : d = b
      · subst same
        by_cases none : coefficientsOf d es = []
        · simp [none]
        · simp [none]
      · simp [same, Ne.symm same]
    recurrences := by simpa [noPart] using h.recurrences }

theorem Totals.insert {e : Expr} {t' : Terms} (run : Terms.insert t e = .ok t') :
    Totals (es ++ [e]) t' := by
  rcases insert_cases run with
    ⟨v, w, rfl, rfl⟩ | ⟨a, b, l, rfl, rfl⟩ | ⟨other, still, c, b, part, rfl⟩
  · exact h.insert_const v w
  · exact h.insert_recurrence a b l
  · exact h.insert_multiple other still part

end insert

theorem totals_ofList {es : List Expr} {t : Terms} (run : ofList es = .ok t) : Totals es t :=
  ofList_induction totals_empty (fun _ _ _ _ held step => held.insert step) run

end Terms

end ShapeRecovery.Expr
