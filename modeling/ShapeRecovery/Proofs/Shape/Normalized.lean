import ShapeRecovery.Proofs.Expr.ExactDivision
import ShapeRecovery.Proofs.Shape.InnerSizes
import ShapeRecovery.Proofs.Shape.Subscripts

namespace ShapeRecovery.ArrayShape

open ShapeRecovery.Expr

variable {iw w : Int} {dims : List Dimension} {s k j : Nat} {raw el : Element} {shape : ArrayShape}
  {sub q : Expr}

/-- The product of the inner sizes divides the subscript `sub` of an access in dimension `j`; the quotient
is `q`. -/
structure DividesOut (iw w : Int) (dims : List Dimension) (s : Nat) (raw : Element) (j : Nat)
    (sub q : Expr) : Prop where
  here : raw.subscripts[j]? = some sub
  exact : ∃ r, quotRem iw sub (innerSizes w dims s j) = .ok (q, r) ∧ r.isZero = true

/-- Dimension `j` is reached, and the subscripts from there on up to `s` were divided. -/
structure Cleared (iw w : Int) (dims : List Dimension) (s : Nat) (raw : Element) (j : Nat) : Prop where
  reached : Reached dims s j
  exact : ∀ i, j ≤ i → i + 1 < s → ∃ sub q, DividesOut iw w dims s raw i sub q

/-- `el` is what becomes of the access `raw` once the dimensions from `k` on were taken. -/
structure Normalized (iw w : Int) (dims : List Dimension) (s k : Nat) (raw el : Element) : Prop where
  ptr : el.ptr = raw.ptr
  isElement : el.isElement = raw.isElement
  length : el.subscripts.length = raw.subscripts.length
  untouched : raw.isValid = false ∨ raw.subscripts.length ≠ dims.length → el = raw
  isValid : raw.isValid = true → raw.subscripts.length = dims.length →
    (el.isValid = true ↔ ∀ j, k ≤ j → Reached dims s j → ∃ sub q, DividesOut iw w dims s raw j sub q)
  divided : raw.isValid = true → raw.subscripts.length = dims.length → ∀ j, k ≤ j →
    Cleared iw w dims s raw j → ∃ sub q, DividesOut iw w dims s raw j sub q ∧ el.subscripts[j]? = some q
  kept : ∀ j, (k ≤ j → ¬Cleared iw w dims s raw j) → el.subscripts[j]? = raw.subscripts[j]?

namespace Normalized

private theorem of_untouched (raw : Element) (k : Nat)
    (skip : raw.isValid = false ∨ raw.subscripts.length ≠ dims.length) :
    Normalized iw w dims s k raw raw where
  ptr := rfl
  isElement := rfl
  length := rfl
  untouched _ := rfl
  isValid valid length := absurd skip (by simp [valid, length])
  divided valid length := absurd skip (by simp [valid, length])
  kept _ _ := rfl

/-- Nothing happens where no dimension is reached. -/
theorem start (raw : Element) (none : ∀ j, k ≤ j → ¬Reached dims s j) :
    Normalized iw w dims s k raw raw where
  ptr := rfl
  isElement := rfl
  length := rfl
  untouched _ := rfl
  isValid valid _ := iff_of_true valid fun j le reached => absurd reached (none j le)
  divided _ _ j le cleared := absurd cleared.reached (none j le)
  kept _ _ := rfl

/-- The dimensions that are not reached need not be taken. -/
private theorem finish (before : Normalized iw w dims s k raw el) (stuck : ∀ j < k, ¬Reached dims s j) :
    Normalized iw w dims s 0 raw el where
  ptr := before.ptr
  isElement := before.isElement
  length := before.length
  untouched := before.untouched
  isValid valid length := by
    rw [before.isValid valid length]
    refine ⟨fun all j _ reached => all j (Nat.le_of_not_lt fun below => stuck j below reached) reached,
      fun all j _ => all j (Nat.zero_le j)⟩
  divided valid length j _ cleared :=
    before.divided valid length j (Nat.le_of_not_lt fun below => stuck j below cleared.reached) cleared
  kept j kept := before.kept j fun _ => kept (Nat.zero_le j)

/-- An access that was given up is left alone. -/
private theorem step_invalid (before : Normalized iw w dims s (k + 1) raw el) (valid : raw.isValid = true)
    (length : raw.subscripts.length = dims.length) (invalid : el.isValid = false) :
    Normalized iw w dims s k raw el where
  ptr := before.ptr
  isElement := before.isElement
  length := before.length
  untouched := before.untouched
  isValid _ _ := by
    refine ⟨fun valid => by simp [invalid] at valid, fun all => (before.isValid valid length).mpr ?_⟩
    exact fun j le => all j (by omega)
  divided _ _ j le cleared := by
    rcases Nat.eq_or_lt_of_le le with rfl | above
    · have still := (before.isValid valid length).mpr fun i le reached =>
        cleared.exact i (by omega) reached.before
      simp [invalid] at still
    · exact before.divided valid length j above cleared
  kept j kept := before.kept j fun le => kept (by omega)

/-- One more subscript is divided. -/
private theorem step_exact (before : Normalized iw w dims s (k + 1) raw el) (valid : el.isValid = true)
    (ready : raw.isValid = true) (length : raw.subscripts.length = dims.length)
    (reached : Reached dims s k) (divides : DividesOut iw w dims s raw k sub q) :
    Normalized iw w dims s k raw { el with subscripts := el.subscripts.set k q } where
  ptr := before.ptr
  isElement := before.isElement
  length := by simp [before.length]
  untouched skip := absurd skip (by simp [ready, length])
  isValid _ _ := by
    refine iff_of_true valid fun j le reached => ?_
    rcases Nat.eq_or_lt_of_le le with rfl | above
    · exact ⟨sub, q, divides⟩
    · exact (before.isValid ready length).mp valid j above reached
  divided _ _ j le cleared := by
    rcases Nat.eq_or_lt_of_le le with rfl | above
    · have inside := (List.getElem?_eq_some_iff.mp divides.here).1
      exact ⟨sub, q, divides, by simp [before.length, inside]⟩
    · obtain ⟨sub', q', divides', there⟩ := before.divided ready length j above cleared
      exact ⟨sub', q', divides', by simp [there, Nat.ne_of_lt above]⟩
  kept j kept := by
    have apart : k ≠ j := by
      rintro rfl
      refine kept le_rfl ⟨reached, fun i le inner => ?_⟩
      rcases Nat.eq_or_lt_of_le le with rfl | above
      · exact ⟨sub, q, divides⟩
      · exact (before.isValid ready length).mp valid i above (reached.mono le inner)
    have same := before.kept j fun le => kept (by omega)
    simpa [apart] using same

/-- An access is given up where the inner sizes do not divide its subscript. -/
private theorem step_inexact (before : Normalized iw w dims s (k + 1) raw el) (ready : raw.isValid = true)
    (length : raw.subscripts.length = dims.length) (reached : Reached dims s k)
    (remains : ∀ sub q, ¬DividesOut iw w dims s raw k sub q) :
    Normalized iw w dims s k raw { el with isValid := false } where
  ptr := before.ptr
  isElement := before.isElement
  length := before.length
  untouched skip := absurd skip (by simp [ready, length])
  isValid _ _ := by
    refine iff_of_false (by simp) fun all => ?_
    obtain ⟨sub, q, divides⟩ := all k le_rfl reached
    exact remains sub q divides
  divided _ _ j le cleared := by
    rcases Nat.eq_or_lt_of_le le with rfl | above
    · obtain ⟨sub, q, divides⟩ := cleared.exact k le_rfl reached.before
      exact absurd divides (remains sub q)
    · exact before.divided ready length j above cleared
  kept j kept := before.kept j fun le => kept (by omega)

/-- The subscripts that there are afterwards can be listed, as those before. -/
theorem wellFormed (done : Normalized iw w dims s 0 raw el) (pos : 0 < w)
    (fit : ∀ e ∈ raw.subscripts, e.WellFormed) : ∀ e ∈ el.subscripts, e.WellFormed := by
  intro e mem
  obtain ⟨j, there⟩ := List.mem_iff_getElem?.mp mem
  by_cases same : el.subscripts[j]? = raw.subscripts[j]?
  · exact fit e (List.mem_of_getElem? (same ▸ there))
  · have cleared : Cleared iw w dims s raw j := by
      by_contra blocked
      exact same (done.kept j fun _ => blocked)
    have ready : ¬(raw.isValid = false ∨ raw.subscripts.length ≠ dims.length) := fun skip =>
      same (by rw [done.untouched skip])
    obtain ⟨valid, length⟩ : raw.isValid = true ∧ raw.subscripts.length = dims.length := by
      simpa using ready
    obtain ⟨sub, q, divides, quotient⟩ := done.divided valid length j (Nat.zero_le j) cleared
    cases there.symm.trans quotient
    obtain ⟨r, run, -⟩ := divides.exact
    obtain ⟨q', r', run', fitQ, -⟩ :=
      (fit sub (List.mem_of_getElem? divides.here)).quotRem_const iw (innerSizes_typed pos dims s j)
    cases run.symm.trans run'
    exact fitQ

end Normalized

/-- One more dimension is taken for one access. -/
private theorem normalizeElement_step (pos : 0 < w) (within : s ≤ max 1 dims.length)
    (reached : Reached dims s k)
    (fit : raw.isValid = true → raw.subscripts.length = dims.length →
      ∀ e ∈ raw.subscripts, e.WellFormed) (before : Normalized iw w dims s (k + 1) raw el) :
    ∃ el', (normalizeElement iw dims.length k (innerSizes w dims s k) el).outcome = .ok el' ∧
      Normalized iw w dims s k raw el' := by
  have skipped (skip : (!el.isValid || el.subscripts.length ≠ dims.length) = true) :
      (normalizeElement iw dims.length k (innerSizes w dims s k) el).outcome = .ok el := by
    simp only [normalizeElement, skip, if_true, Traced.outcome_pure]
  by_cases ready : raw.isValid = true ∧ raw.subscripts.length = dims.length
  · obtain ⟨valid, length⟩ := ready
    have below := reached.before
    cases still : el.isValid with
    | false => exact ⟨el, skipped (by simp [still]), before.step_invalid valid length still⟩
    | true =>
      have here : raw.subscripts[k]? = some raw.subscripts[k] := List.getElem?_eq_getElem (by omega)
      have wellFormed := fit valid length _ (List.mem_of_getElem? here)
      generalize raw.subscripts[k] = sub at here wellFormed
      have there := (before.kept k fun le => absurd le (by omega)).trans here
      obtain ⟨q, r, run, fitQ, fitR⟩ := wellFormed.quotRem_const iw (innerSizes_typed pos dims s k)
      have step := normalizeElement_eq still (before.length.trans length) there wellFormed run fitQ fitR
      refine ⟨_, step, ?_⟩
      split
      · next exact =>
        exact before.step_exact still valid length reached ⟨here, r, run, exact⟩
      · next inexact =>
        refine before.step_inexact valid length reached fun sub' q' divides => ?_
        obtain ⟨r', run', exact⟩ := divides.exact
        cases here.symm.trans divides.here
        cases run.symm.trans run'
        exact inexact exact
  · have skip : raw.isValid = false ∨ raw.subscripts.length ≠ dims.length := by
      simpa [-not_and, not_and_or] using ready
    obtain rfl := before.untouched skip
    exact ⟨el, skipped (by simpa using skip), .of_untouched el k skip⟩

/-- The dimensions before `k` are taken one by one. -/
private theorem normalizeFrom_run {raws : List Element} (pos : 0 < w) (below : k < s)
    (within : s ≤ max 1 shape.dims.length) (sizes : ∀ dim ∈ shape.dims.drop 1, dim.size.WellFormed)
    (fit : ∀ raw ∈ raws, raw.isValid = true → raw.subscripts.length = shape.dims.length →
      ∀ e ∈ raw.subscripts, e.WellFormed)
    (constant : ∀ dim ∈ (shape.dims.take s).drop (k + 1), dim.size.isConst = true)
    (before : List.Forall₂ (Normalized iw w shape.dims s k) raws shape.elements) :
    ∃ els, Tracked.outcome (normalizeFrom iw w shape.dims.length k (innerSizes w shape.dims s k)) shape =
        (.ok (), { shape with elements := els }) ∧
      List.Forall₂ (Normalized iw w shape.dims s 0) raws els := by
  induction k generalizing shape with
  | zero => exact ⟨shape.elements, rfl, before⟩
  | succ k ih =>
    have inside : k + 1 < shape.dims.length := by omega
    have here : shape.dims[k + 1]? = some shape.dims[k + 1] := List.getElem?_eq_getElem inside
    have fitSize := sizes _ (List.mem_of_getElem? (i := k) (by rw [List.getElem?_drop, Nat.add_comm 1 k, here]))
    have after := dims_after below here
    generalize shape.dims[k + 1] = dim at here fitSize after
    unfold normalizeFrom
    rw [Tracked.get_bind]
    dsimp only
    rw [here]
    cases isConst : dim.size.isConst with
    | true =>
      have reached : Reached shape.dims s k := ⟨below, by
        rw [after]
        exact List.forall_mem_cons.mpr ⟨isConst, constant⟩⟩
      have resized := fitSize.resize_isConst pos isConst
      obtain ⟨els, each, next⟩ := mapM_forall₂ before fun raw mem el before =>
        normalizeElement_step pos within reached (fit raw mem) before
      have update := updateElements_eq each (show shape.elements = [] ++ shape.elements from rfl)
      obtain ⟨els', run, done⟩ := @ih { shape with elements := els } (by omega) within sizes fit
        reached.constant next
      refine ⟨els', ?_, done⟩
      rw [Option.map_some, Option.getD_some, if_pos isConst, Tracked.liftExcept_of_ok resized,
        Tracked.liftExcept_of_ok (productOf_innerSizes iw pos below here),
        Tracked.bind_of_ok update]
      exact run
    | false =>
      obtain ⟨t, text⟩ := fitSize.text
      refine ⟨shape.elements, ?_, before.imp fun raw el before => before.finish fun j lt reached => ?_⟩
      · rw [Option.map_some, Option.getD_some, if_neg (by simp [isConst]), Tracked.liftExcept_of_ok text]
        rfl
      · have mem : dim ∈ (shape.dims.take s).drop (j + 1) := by
          refine (List.drop_sublist_drop_left _ (show j + 1 ≤ k + 1 by omega)).subset ?_
          rw [after]
          exact List.mem_cons_self
        simp [reached.constant dim mem] at isConst

/-- Normalizing an array whose inner sizes are known ends, and touches nothing but its accesses. -/
theorem normalize_run (settings : Settings) (pos : 0 < w) (sized : shape.sized = true)
    (named : ∃ name, shape.base.label = .ok name)
    (sizes : ∀ dim ∈ shape.dims.drop 1, dim.size.WellFormed)
    (fit : ∀ raw ∈ shape.elements, raw.isValid = true → raw.subscripts.length = shape.dims.length →
      ∀ e ∈ raw.subscripts, e.WellFormed)
    (known : ∀ dim ∈ shape.dims.drop 1, dim.size ≠ uncomputable) (first : FirstHinted shape.dims s) :
    ∃ els, Tracked.outcome (normalize settings w) shape = (.ok (), { shape with elements := els }) ∧
      List.Forall₂ (Normalized settings.indexWidth w shape.dims s 0) shape.elements els := by
  have inner := first.inner
  obtain ⟨name, label⟩ := named
  have computed : ((shape.dims.drop 1).any fun dim => dim.size = .uncomputable) = false := by
    simpa using known
  have none : ∀ j, s - 1 ≤ j → ¬Reached shape.dims s j := fun j le reached => by
    have before := reached.before
    omega
  have last : (shape.dims.take s).drop (s - 1 + 1) = [] := List.drop_eq_nil_of_le (by simp; omega)
  obtain ⟨els, run, done⟩ := normalizeFrom_run pos (show s - 1 < s by omega) first.le_length sizes fit
    (by simp [last]) (List.forall₂_same.mpr fun raw _ => Normalized.start raw none)
  refine ⟨els, ?_, done⟩
  unfold normalize
  rw [Tracked.get_bind, if_neg (by simp [sized]), Tracked.liftExcept_of_ok label, Tracked.say_bind]
  dsimp only
  rw [if_neg (ne_true_of_eq_false computed), Tracked.liftExcept_of_ok (one_eq pos), first.beforeHinted_eq,
    ← innerSizes_last w shape.dims inner]
  exact run

/-- Normalizing divides subscripts and touches nothing else. With the sizes from dimension `s` on declared,
each access that is valid and has a subscript for each dimension is taken outward from there, as long as
sizes are constants: its subscripts are replaced by their quotients by the inner sizes up to the first one
that leaves a remainder, which makes the access invalid. A subscript that is replaced keeps its value as long
as recurrences are nowhere below other operators. -/
theorem normalize_addresses (settings : Settings) (pos : 0 < w) (sized : shape.sized = true)
    (base : shape.base.WellFormed) (sizes : ∀ dim ∈ shape.dims.drop 1, dim.size.WellFormed)
    (fit : ∀ raw ∈ shape.elements, raw.isValid = true → raw.subscripts.length = shape.dims.length →
      ∀ e ∈ raw.subscripts, e.WellFormed)
    (known : ∀ dim ∈ shape.dims.drop 1, dim.size ≠ uncomputable) (first : FirstHinted shape.dims s) :
    ∃ els, Tracked.outcome (normalize settings w) shape = (.ok (), { shape with elements := els }) ∧
      List.Forall₂ (Normalized settings.indexWidth w shape.dims s 0) shape.elements els ∧
      ∀ raw ∈ shape.elements, ∀ j sub q, DividesOut settings.indexWidth w shape.dims s raw j sub q →
        HasBits sub w → Nested sub →
        ∀ ρ, value w ρ sub = value w ρ q * value w ρ (innerSizes w shape.dims s j) := by
  obtain ⟨text, readable⟩ := base.text
  obtain ⟨els, run, each⟩ :=
    normalize_run settings pos sized (Pointer.label_of_text readable) sizes fit known first
  refine ⟨els, run, each, fun raw _ j sub q divides typed nested ρ => ?_⟩
  obtain ⟨r, division, exact⟩ := divides.exact
  exact quotRem_exact (innerSizes_typed pos _ _ _) typed nested division exact ρ

/-- A subscript of eight bits that moves in steps of half of all words. -/
def halfSteps : Expr :=
  recurrence (const 0 8) (const (-128) 8) outerLoop

/-- An array of words of eight bits whose inner sizes make up 384 together, which is read as -128. Its
second access has a middle subscript that is no multiple of the size 16, and its third one was given up
before and has a sum of nothing for a subscript. -/
def wrapping : ArrayShape :=
  let base : Pointer := .object ⟨"A", 1⟩ none
  { ofBase base with
    dims := [.unknown, ⟨const 24 8, false⟩, ⟨const 16 8, false⟩, ⟨const 5 8, true⟩]
    elements := [
      ⟨base, [halfSteps, recurrence (const 16 8) (const 32 8) innerLoop, const 3 8, const 1 8], true, true⟩,
      ⟨base, [halfSteps, const 24 8, const 3 8, const 1 8], true, true⟩,
      ⟨base, [Expr.sum []], true, false⟩]
    sized := true }

theorem wrapping_base : wrapping.base.WellFormed := by decide +kernel

theorem wrapping_sizes : ∀ dim ∈ wrapping.dims.drop 1, dim.size.WellFormed := by decide +kernel

theorem wrapping_fit : ∀ raw ∈ wrapping.elements, raw.isValid = true →
    raw.subscripts.length = wrapping.dims.length → ∀ e ∈ raw.subscripts, e.WellFormed := by decide +kernel

theorem wrapping_firstHinted : FirstHinted wrapping.dims 3 where
  inner := by decide
  hinted := by simp [HintedFrom, wrapping]
  least t inner all := by
    by_contra below
    obtain rfl | rfl : t = 1 ∨ t = 2 := by omega
    all_goals simp [HintedFrom, wrapping] at all

theorem normalize_addresses_wrapping : wrapping.sized = true ∧ wrapping.base.WellFormed ∧
    (∀ dim ∈ wrapping.dims.drop 1, dim.size.WellFormed) ∧
    (∀ raw ∈ wrapping.elements, raw.isValid = true → raw.subscripts.length = wrapping.dims.length →
      ∀ e ∈ raw.subscripts, e.WellFormed) ∧
    (∀ dim ∈ wrapping.dims.drop 1, dim.size ≠ uncomputable) ∧ FirstHinted wrapping.dims 3 ∧
    ∃ els, Tracked.outcome (normalize ⟨64, false⟩ 8) wrapping =
        (.ok (), { wrapping with elements := els }) ∧
      List.Forall₂ (Normalized 64 8 wrapping.dims 3 0) wrapping.elements els ∧
      els.map Element.isValid = [true, false, false] ∧
      els.map Element.subscripts = [
        [recurrence (const 0 8) (const 1 8) outerLoop, recurrence (const 1 8) (const 2 8) innerLoop,
          const 3 8, const 1 8],
        [halfSteps, const 24 8, const 3 8, const 1 8], [Expr.sum []]] ∧
      ∀ ρ, value 8 ρ halfSteps =
        value 8 ρ (recurrence (const 0 8) (const 1 8) outerLoop) * value 8 ρ (const (-128) 8) := by
  have known : ∀ dim ∈ wrapping.dims.drop 1, dim.size ≠ uncomputable := by simp [wrapping]
  obtain ⟨els, run, each, exact⟩ := normalize_addresses ⟨64, false⟩ (show (0 : Int) < 8 by decide) rfl
    wrapping_base wrapping_sizes wrapping_fit known wrapping_firstHinted
  have elements : (Tracked.outcome (normalize ⟨64, false⟩ 8) wrapping).2.elements = els := by rw [run]
  refine ⟨rfl, wrapping_base, wrapping_sizes, wrapping_fit, known, wrapping_firstHinted, els, run, each,
    ?_, ?_, ?_⟩
  · rw [← elements]
    decide +kernel
  · rw [← elements]
    decide +kernel
  · have typed : HasBits halfSteps 8 := by decide +kernel
    have nested : Nested halfSteps :=
      .recurrence (.loopFree (within_const _ _)) (.loopFree (within_const _ _))
    exact exact _ List.mem_cons_self 0 _ _ ⟨rfl, const 0 8, by decide +kernel, rfl⟩ typed nested

end ShapeRecovery.ArrayShape
