import ShapeRecovery.Proofs.Shape.Sizes
import ShapeRecovery.Proofs.Shape.Summary
import ShapeRecovery.Shape.Subscripts

namespace ShapeRecovery

open ShapeRecovery.Expr

/-- A row in which the subscripts from `k` on are divided by the strides of what lies inside. -/
def divideFrom (strides : Nat → Nat) (k : Nat) (row : List Expr) : List Expr :=
  row.mapIdx fun i s => if k ≤ i then shrink (strides (i + 1)) s else s

private theorem divideFrom_succ {strides : Nat → Nat} {k : Nat} {row : List Expr} {s : Expr}
    (here : row[k]? = some s) :
    (divideFrom strides (k + 1) row).set k (shrink (strides (k + 1)) s) =
      divideFrom strides k row := by
  obtain ⟨inside, rfl⟩ := List.getElem?_eq_some_iff.mp here
  refine List.ext_getElem (by simp [divideFrom]) fun i _ _ => ?_
  simp only [divideFrom, List.getElem_set, List.getElem_mapIdx]
  by_cases same : k = i
  · subst same
    simp
  · have apart : k ≤ i ↔ k + 1 ≤ i := by omega
    simp [same, apart]

/-- Dividing by strides of one changes nothing. -/
private theorem divideFrom_inner {strides : Nat → Nat} {k n : Nat} {row : List Expr} (length : row.length = n)
    (ones : ∀ i, k ≤ i → i < n → strides (i + 1) = 1) : divideFrom strides k row = row := by
  refine List.ext_getElem (by simp [divideFrom]) fun i _ inside => ?_
  simp only [divideFrom, List.getElem_mapIdx]
  split
  · next above =>
    rw [ones i above (length ▸ inside)]
    exact shrink_one _
  · rfl

namespace ArrayShape

variable {settings : Settings} {w iw : Int} {shape : ArrayShape} {m n k : Nat}
  {strides : Nat → Nat} {raw el : Element}

/-- `el` is the entry `raw` with the subscripts from `k` on divided, if it accesses one element.
Nothing is said of the subscripts of other accesses. -/
structure DividedFrom (strides : Nat → Nat) (k : Nat) (raw el : Element) : Prop where
  ptr : el.ptr = raw.ptr
  isElement : el.isElement = raw.isElement
  wellFormed : el.WellFormed
  isValid : raw.isElement = true → el.isValid = true
  subscripts : raw.isElement = true → el.subscripts = divideFrom strides k raw.subscripts

/-- What division makes of the subscript `k` of a valid access. -/
theorem normalizeElement_eq {d : Int} {s q r : Expr} (valid : el.isValid = true)
    (length : el.subscripts.length = n) (here : el.subscripts[k]? = some s) (fit : s.WellFormed)
    (run : quotRem iw s (const d w) = .ok (q, r)) (fitQ : q.WellFormed) (fitR : r.WellFormed) :
    (normalizeElement iw n k (const d w) el).outcome =
      .ok (if r.isZero then { el with subscripts := el.subscripts.set k q }
        else { el with isValid := false }) := by
  obtain ⟨t, ht⟩ := fit.text
  obtain ⟨a, ha⟩ := fitQ.text
  obtain ⟨b, hb⟩ := fitR.text
  have sub := itemAt_of_getElem? here
  simp only [normalizeElement, valid, Bool.not_true, length, ne_eq, not_true_eq_false, decide_false,
    Bool.or_self, Bool.false_eq_true, if_false, Traced.outcome_bind, Traced.outcome_lift, sub,
    ok_bind, run, ht, Expr.text, ha, hb, Traced.outcome_say]
  split <;> rfl

/-- Division by a constant ends for every access. -/
theorem normalizeElement_total (iw : Int) {d : Int} (typed : HasBits (const d w) w) (inside : k < n)
    (fit : ∀ s ∈ el.subscripts, s.WellFormed) :
    ∃ el', (normalizeElement iw n k (const d w) el).outcome = .ok el' ∧ el'.ptr = el.ptr ∧
      el'.isElement = el.isElement ∧ ∀ s ∈ el'.subscripts, s.WellFormed := by
  by_cases ready : el.isValid = true ∧ el.subscripts.length = n
  · obtain ⟨valid, length⟩ := ready
    have here := List.getElem?_eq_getElem (length.symm ▸ inside)
    have sub := fit _ (List.mem_of_getElem? here)
    obtain ⟨q, r, run, fitQ, fitR⟩ := sub.quotRem_const iw typed
    refine ⟨_, normalizeElement_eq valid length here sub run fitQ fitR, ?_⟩
    split
    · refine ⟨rfl, rfl, fun s hs => ?_⟩
      rcases List.mem_or_eq_of_mem_set hs with hs | rfl
      · exact fit s hs
      · exact fitQ
    · exact ⟨rfl, rfl, fit⟩
  · have skip : (!el.isValid || el.subscripts.length ≠ n) = true := by
      simpa [-not_and, not_and_or] using ready
    exact ⟨el, by simp only [normalizeElement, skip, if_true, Traced.outcome_pure], rfl, rfl, fit⟩

/-- One step inward: the stride of what lies inside dimension `k` divides this subscript. -/
private theorem normalizeElement_dividedFrom {rows : List (List Expr)} (iw : Int) (wide : 2 ≤ w)
    (constant : ConstantRows w n rows) (inner : m ≤ n) (inside : k < n)
    (positive : 0 < stride rows m (k + 1)) (member : raw.isElement = true → raw.subscripts ∈ rows)
    (divided : DividedFrom (stride rows m) (k + 1) raw el) :
    ∃ el', (normalizeElement iw n k (const (stride rows m (k + 1)) w) el).outcome = .ok el' ∧
      DividedFrom (stride rows m) k raw el' := by
  have pos : 0 < w := by omega
  have small : Expr.Small w (stride rows m (k + 1)) :=
    constant.stride_small wide (Nat.le_add_left 1 k) inner
  cases kind : raw.isElement with
  | false =>
    obtain ⟨el', run, ptr, isElement, fit⟩ :=
      normalizeElement_total iw (small.hasBits pos) inside divided.wellFormed.subscripts
    exact ⟨el', run, ptr.trans divided.ptr, isElement.trans divided.isElement,
      ⟨ptr.symm ▸ divided.wellFormed.ptr, fit⟩, by simp [kind], by simp [kind]⟩
  | true =>
    have row := member kind
    have length := constant.length _ row
    have here : raw.subscripts[k]? = some raw.subscripts[k] :=
      List.getElem?_eq_getElem (length.symm ▸ inside)
    have nest := constant.nests _ row _ (List.mem_of_getElem? here)
    generalize raw.subscripts[k] = s at here nest
    have subs := divided.subscripts kind
    have same : el.subscripts[k]? = some s := by
      rw [subs, divideFrom, List.getElem?_mapIdx, here]
      simp
    have run := quotRem_nest iw pos nest small (by omega) (stride_dvd_constants row here)
    have total := (nest.hasBits pos).wellFormed.quotRem_const iw (small.hasBits pos)
    obtain ⟨q, r, run', fitQ, fitR⟩ := total
    rw [run, Except.ok.injEq, Prod.mk.injEq] at run'
    obtain ⟨rfl, rfl⟩ := run'
    have count : el.subscripts.length = n := by
      rw [subs, divideFrom, List.length_mapIdx, length]
    refine ⟨_, normalizeElement_eq (divided.isValid kind) count same (nest.hasBits pos).wellFormed run
      fitQ fitR, ?_⟩
    rw [if_pos (show (const 0 w).isZero = true from rfl)]
    exact {
      ptr := divided.ptr
      isElement := divided.isElement
      wellFormed := ⟨divided.wellFormed.ptr, fun e he => by
        rcases List.mem_or_eq_of_mem_set he with he | rfl
        · exact divided.wellFormed.subscripts e he
        · exact fitQ⟩
      isValid := fun _ => divided.isValid kind
      subscripts := fun _ => by
        simp only [subs]
        exact divideFrom_succ here }

/-- Changing the accesses one after the other changes each of them. -/
theorem updateElements_eq {f : Element → Traced Element} {done todo els : List Element}
    (run : (todo.mapM fun el => (f el).outcome) = .ok els) (here : shape.elements = done ++ todo) :
    Tracked.outcome (updateElements f done todo) shape =
      (.ok (), { shape with elements := done ++ els }) := by
  induction todo generalizing done els shape with
  | nil =>
    rw [List.mapM_nil] at run
    injection run with run
    subst run
    rw [← here]
    rfl
  | cons el todo ih =>
    rw [List.mapM_cons] at run
    obtain ⟨el', hel, run⟩ := bind_eq_ok.mp run
    obtain ⟨els', hels, run⟩ := bind_eq_ok.mp run
    injection run with run
    subst run
    have rest := @ih { shape with elements := done ++ el' :: todo } (done ++ [el']) els' hels (by simp)
    simp only [updateElements, Tracked.outcome_bind, Tracked.outcome_lift, hel, Tracked.outcome_modify,
      rest]
    simp

/-- The subscripts before `k` are divided one dimension after the other, and `related` says how the
accesses then compare with those that there were first. -/
private theorem normalizeFrom_related {dims : List Dimension} {raws : List Element}
    {related : Nat → Element → Element → Prop} (iw : Int) (wide : 2 ≤ w)
    (small : ∀ d, 1 ≤ d → d ≤ m → Expr.Small w (strides d))
    (multiple : ∀ d, 1 ≤ d → d < m → strides (d + 1) ∣ strides d)
    (sized : SizedBy w strides m n dims)
    (step : ∀ k, k + 1 < m → ∀ raw ∈ raws, ∀ el, related (k + 1) raw el →
      ∃ el', (normalizeElement iw n k (const (strides (k + 1)) w) el).outcome = .ok el' ∧
        related k raw el')
    (below : k < m) (same : shape.dims = dims)
    (start : List.Forall₂ (related k) raws shape.elements) :
    ∃ els, Tracked.outcome (normalizeFrom iw w n k (const (strides (k + 1)) w)) shape =
        (.ok (), { shape with elements := els }) ∧ List.Forall₂ (related 0) raws els := by
  induction k generalizing shape with
  | zero => exact ⟨shape.elements, rfl, start⟩
  | succ k ih =>
    have size : ((shape.dims[k + 1]?).map Dimension.size).getD .uncomputable =
        const (strides (k + 1) / strides (k + 2) : Nat) w := by
      rw [same, sized.found (k + 1) (Nat.le_add_left 1 k) below]
      rfl
    have product := productOf_quotient iw wide (small (k + 1) (by omega) (by omega))
      (small (k + 2) (by omega) below) (multiple (k + 1) (by omega) below)
    obtain ⟨els, run, here⟩ := mapM_forall₂ start (step k below)
    obtain ⟨els', run', there⟩ := @ih { shape with elements := els } (by omega) same here
    have update := updateElements_eq run (show shape.elements = [] ++ shape.elements from rfl)
    refine ⟨els', ?_, there⟩
    simp only [normalizeFrom, Tracked.outcome_bind, Tracked.outcome_get, size, isConst, if_true,
      resize_const, Tracked.outcome_lift_except, product, update, List.nil_append]
    exact run'

theorem beforeHinted_eq {dims : List Dimension} (sized : SizedBy w strides m n dims) (some : 1 ≤ m)
    (above : m ≤ k) (inside : k ≤ n) : beforeHinted dims k = m := by
  induction k with
  | zero => omega
  | succ k ih =>
    rcases Nat.eq_or_lt_of_le above with rfl | above
    · cases k with
      | zero => rfl
      | succ k => simp only [beforeHinted, sized.found (k + 1) (by omega) (by omega)]; rfl
    · obtain ⟨k, rfl⟩ := Nat.exists_eq_add_of_le' (show 1 ≤ k by omega)
      obtain ⟨v, known, -⟩ := sized.declared (k + 1) (by omega) (by omega)
      simp only [beforeHinted, known, if_true]
      exact ih (by omega) (by omega)

private theorem SizedBy.inner_const {dims : List Dimension} (sized : SizedBy w strides m n dims) :
    ∀ dim ∈ dims.drop 1, ∃ v, dim.size = const v w := by
  intro dim mem
  obtain ⟨i, here⟩ := List.mem_iff_getElem?.mp mem
  rw [List.getElem?_drop] at here
  have inside := (List.getElem?_eq_some_iff.mp here).1
  by_cases below : 1 + i < m
  · rw [sized.found (1 + i) (Nat.le_add_right 1 i) below, Option.some.injEq] at here
    exact ⟨_, by rw [← here]⟩
  · obtain ⟨v, known, -⟩ := sized.declared (1 + i) (by omega) (sized.length ▸ inside)
    rw [known, Option.some.injEq] at here
    exact ⟨v, by rw [← here]⟩

/-- An array with constant sizes is normalized, where each access can be divided by the strides. -/
theorem normalize_related {raws : List Element} {related : Nat → Element → Element → Prop}
    {name : String} (settings : Settings) (wide : 2 ≤ w) (some : 1 ≤ m) (inner : m ≤ n)
    (last : strides m = 1)
    (small : ∀ d, 1 ≤ d → d ≤ m → Expr.Small w (strides d))
    (multiple : ∀ d, 1 ≤ d → d < m → strides (d + 1) ∣ strides d)
    (sized : SizedBy w strides m n shape.dims) (done : shape.sized = true)
    (named : shape.base.label = .ok name)
    (step : ∀ k, k + 1 < m → ∀ raw ∈ raws, ∀ el, related (k + 1) raw el →
      ∃ el', (normalizeElement settings.indexWidth n k (const (strides (k + 1)) w) el).outcome =
        .ok el' ∧ related k raw el')
    (start : List.Forall₂ (related (m - 1)) raws shape.elements) :
    ∃ els, Tracked.outcome (normalize settings w) shape = (.ok (), { shape with elements := els }) ∧
      List.Forall₂ (related 0) raws els := by
  have computed : ((shape.dims.drop 1).any fun dim => dim.size = .uncomputable) = false := by
    refine List.any_eq_false.mpr fun dim mem => ?_
    obtain ⟨v, hv⟩ := sized.inner_const dim mem
    simp [hv]
  obtain ⟨els, run, divided⟩ := normalizeFrom_related settings.indexWidth wide small multiple sized
    step (show m - 1 < m by omega) rfl start
  rw [Nat.sub_add_cancel some, last, done] at run
  refine ⟨els, ?_, divided⟩
  simp only [normalize, Tracked.outcome_bind, Tracked.outcome_get, done, Bool.not_true,
    Bool.false_eq_true, if_false, Tracked.outcome_lift_except, named, Tracked.outcome_say, computed,
    one_small (show 0 < w by omega) (small_one wide), sized.length,
    beforeHinted_eq sized some inner le_rfl]
  exact run

/-- All subscripts of the accesses to one element are divided. -/
theorem normalize_spec {rows : List (List Expr)} (settings : Settings) (wide : 2 ≤ w)
    (constant : ConstantRows w n rows) (some : 1 ≤ m) (inner : m ≤ n)
    (positive : ∀ d, 1 ≤ d → 0 < stride rows m d)
    (sized : SizedBy w (stride rows m) m n shape.dims) (done : shape.sized = true)
    (member : ∀ raw ∈ shape.elements, raw.isElement = true →
      raw.isValid = true ∧ raw.subscripts ∈ rows)
    (fit : shape.WellFormed) :
    ∃ els, Tracked.outcome (normalize settings w) shape = (.ok (), { shape with elements := els }) ∧
      List.Forall₂ (DividedFrom (stride rows m) 0) shape.elements els := by
  obtain ⟨t, ht⟩ := fit.base.text
  obtain ⟨name, named⟩ := Pointer.label_of_text ht
  have ones : ∀ i, m - 1 ≤ i → i < n → stride rows m (i + 1) = 1 := fun i above _ =>
    if_neg (by omega)
  have start : List.Forall₂ (DividedFrom (stride rows m) (m - 1)) shape.elements shape.elements := by
    refine List.forall₂_same.mpr fun raw mem => ⟨rfl, rfl, fit.elements raw mem, ?_, fun kind => ?_⟩
    · exact fun kind => (member raw mem kind).1
    · have length := constant.length _ (member raw mem kind).2
      exact (divideFrom_inner length ones).symm
  have step (k : Nat) (below : k + 1 < m) (raw : Element) (mem : raw ∈ shape.elements) (el : Element)
      (divided : DividedFrom (stride rows m) (k + 1) raw el) :=
    normalizeElement_dividedFrom settings.indexWidth wide constant inner (show k < n by omega)
      (positive (k + 1) (by omega)) (fun kind => (member raw mem kind).2) divided
  exact normalize_related settings wide some inner (stride_inner rows m)
    (fun d outer _ => constant.stride_small wide outer inner) (fun d _ _ => stride_dvd rows m d) sized
    done named step start

end ArrayShape

end ShapeRecovery
