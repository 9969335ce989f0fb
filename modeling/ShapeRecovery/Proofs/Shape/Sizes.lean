import ShapeRecovery.Proofs.Memory.Pointer
import ShapeRecovery.Proofs.Shape.Stride
import ShapeRecovery.Shape.Sizes

namespace ShapeRecovery

open ShapeRecovery.Expr

namespace ArrayShape

variable {settings : Settings} {w : Int} {hint : List Int} {shape : ArrayShape} {m n d k : Nat}

/-- The subscripts of the accesses that sizes are inferred from. -/
def rows (shape : ArrayShape) : List (List Expr) :=
  shape.validElements.map Element.subscripts

theorem itemAt_of_getElem? {α : Type} {xs : List α} {x : α} (here : xs[k]? = some x) :
    itemAt xs k = .ok x := by
  obtain ⟨inside, rfl⟩ := List.getElem?_eq_some_iff.mp here
  have pos : ¬ (k : Int) < 0 := by omega
  simp [itemAt, position?, pos, inside]

private theorem outerSubscripts_eq {el : Element} (inside : d ≤ el.subscripts.length) :
    outerSubscripts el d = .ok (el.subscripts.take d).reverse := by
  induction d with
  | zero => rfl
  | succ d ih =>
    have here := itemAt_of_getElem? (List.getElem?_eq_getElem inside)
    simp only [outerSubscripts, here, ok_bind, ih (by omega), pure_eq_ok]
    rw [← List.take_concat_get' _ _ (by omega), List.reverse_concat]

theorem dividedSubscripts_eq (length : ∀ row ∈ shape.rows, row.length = n) (inside : d ≤ n) :
    dividedSubscripts shape d = .ok (shape.rows.flatMap fun row => (row.take d).reverse) := by
  have each : ∀ el ∈ shape.validElements,
      outerSubscripts el d = .ok (el.subscripts.take d).reverse := by
    intro el hel
    have length := length _ (List.mem_map_of_mem hel)
    exact outerSubscripts_eq (by omega)
  simp only [dividedSubscripts, mapM_ok each, ok_bind, pure_eq_ok, rows, List.flatMap_map]
  rfl

/-- The size that the subscripts suggest is one stride over the next. -/
private theorem estimateSize_eq (settings : Settings) (wide : 2 ≤ w)
    (constant : ConstantRows w n shape.rows) (outer : 1 ≤ d) (open' : d < m) (inside : m ≤ n)
    (positive : 0 < stride shape.rows m (d + 1)) :
    (estimateSize settings w shape d (const (stride shape.rows m (d + 1)) w)).outcome =
      .ok (const (stride shape.rows m d / stride shape.rows m (d + 1) : Nat) w) := by
  have pos : 0 < w := by omega
  have small {d : Nat} (outer : 1 ≤ d) := constant.stride_small wide outer inside
  generalize hsubs : (shape.rows.flatMap fun row => (row.take d).reverse) = subs
  have mem (s : Expr) : s ∈ subs ↔ ∃ row ∈ shape.rows, s ∈ row.take d := by
    simp [← hsubs]
  have nests : ∀ s ∈ subs, ConstantNest w s := by
    intro s hs
    obtain ⟨row, hrow, hs⟩ := (mem s).mp hs
    exact constant.nests row hrow s (List.mem_of_mem_take hs)
  have some : subs ≠ [] := by
    obtain ⟨row, hrow⟩ := List.exists_mem_of_ne_nil _ constant.some
    have length := constant.length row hrow
    have first : row.take d ≠ [] := List.ne_nil_of_length_pos (by rw [List.length_take]; omega)
    obtain ⟨s, hs⟩ := List.exists_mem_of_ne_nil _ first
    exact List.ne_nil_of_mem ((mem s).mpr ⟨row, hrow, hs⟩)
  have total : gcdAll (subs.flatMap constants) = stride shape.rows m d := by
    rw [stride, if_pos open', outerGcd]
    refine gcdAll_congr fun v => ?_
    simp only [List.mem_flatMap, mem]
    constructor
    · rintro ⟨s, ⟨row, hrow, hs⟩, hv⟩
      exact ⟨row, hrow, s, hs, hv⟩
    · rintro ⟨row, hrow, s, hs, hv⟩
      exact ⟨s, ⟨row, hrow, hs⟩, hv⟩
  have texts : ∀ s ∈ subs, s.WellFormed := fun s hs => ((nests s hs).hasBits pos).wellFormed
  have nonzero : (stride shape.rows m (d + 1) : Int) ≠ 0 := by omega
  have divided := quotRem_const settings.indexWidth pos (small outer) nonzero
  have empty : subs.isEmpty = false := by simpa using some
  simp only [estimateSize, dividedSubscripts_eq constant.length (show d ≤ n by omega), hsubs,
    Traced.outcome_bind, Traced.outcome_lift, ok_bind, sayTexts_total _ _ texts, empty,
    Bool.false_eq_true, if_false, commonDivisor_nests settings pos some nests, total, divided, Expr.text,
    Traced.outcome_say, Traced.outcome_pure]
  rw [Int.ofNat_tdiv]

/-- The dimensions with the sizes from `1` to `k` found. -/
def foundDims (w : Int) (strides : Nat → Nat) (k : Nat) (dims : List Dimension) : List Dimension :=
  dims.mapIdx fun d dim =>
    if 1 ≤ d ∧ d ≤ k then ⟨const (strides d / strides (d + 1) : Nat) w, false⟩ else dim

theorem foundDims_zero (strides : Nat → Nat) (dims : List Dimension) :
    foundDims w strides 0 dims = dims := by
  refine List.ext_getElem (by simp [foundDims]) fun d _ _ => ?_
  have none : ¬ (1 ≤ d ∧ d ≤ 0) := by omega
  simp only [foundDims, List.getElem_mapIdx, if_neg none]

theorem foundDims_succ (strides : Nat → Nat) (k : Nat) (dims : List Dimension) :
    foundDims w strides k
      (dims.set (k + 1) ⟨const (strides (k + 1) / strides (k + 2) : Nat) w, false⟩) =
        foundDims w strides (k + 1) dims := by
  refine List.ext_getElem (by simp [foundDims]) fun d _ _ => ?_
  simp only [foundDims, List.getElem_mapIdx, List.getElem_set]
  by_cases last : k + 1 = d
  · subst last
    simp
  · have same : d ≤ k + 1 ↔ d ≤ k := by omega
    simp [last, same]

theorem foundDims_congr {strides strides' : Nat → Nat} (same : ∀ d ≤ k + 1, strides d = strides' d)
    (dims : List Dimension) : foundDims w strides k dims = foundDims w strides' k dims := by
  refine List.ext_getElem (by simp [foundDims]) fun d _ _ => ?_
  simp only [foundDims, List.getElem_mapIdx]
  split
  · next inside => rw [same d (by omega), same (d + 1) (by omega)]
  · rfl

theorem resize_const (v w : Int) : resize w (const v w) = .ok (const v w) := by
  simp [resize, width]

/-- The inner product is a stride at every step. -/
private theorem findSizesFrom_eq (settings : Settings) (wide : 2 ≤ w)
    (constant : ConstantRows w n shape.rows) (inside : m ≤ n) (below : k < m)
    (unknown : ∀ d < m, knownHint? hint d = none) (positive : ∀ d, 1 ≤ d → 0 < stride shape.rows m d) :
    Tracked.outcome (findSizesFrom settings w hint k (const (stride shape.rows m (k + 1)) w)) shape =
      (.ok (), { shape with
        dims := foundDims w (stride shape.rows m) k shape.dims
        sized := true }) := by
  induction k generalizing shape with
  | zero =>
    rw [foundDims_zero]
    rfl
  | succ k ih =>
    have size := estimateSize_eq settings wide constant (Nat.le_add_left 1 k) below inside
      (positive (k + 2) (by omega))
    have product := constant.productOf_stride settings.indexWidth wide (Nat.le_add_left 1 k) inside
    have next := foundDims_succ (stride shape.rows m) k shape.dims (w := w)
    have here := positive (k + 1) (by omega)
    have whole := Nat.mul_div_cancel' (stride_dvd shape.rows m (k + 1))
    generalize stride shape.rows m (k + 1) / stride shape.rows m (k + 2) = q at size product next whole
    have nonzero : q ≠ 0 := by
      rintro rfl
      omega
    have zero : (const (q : Int) w).isZero = false := by simpa [isZero] using nonzero
    simp only [findSizesFrom, Tracked.outcome_bind, say, Tracked.outcome_say, unknown _ below,
      Tracked.outcome_get, Tracked.outcome_lift, size, zero, reduceCtorEq, decide_false,
      Bool.or_self, Bool.false_eq_true, if_false, Tracked.outcome_modify, Option.isSome_none,
      Tracked.outcome_lift_except, Expr.text, resize_const, product, ← next]
    exact @ih (shape.setSize (k + 1) (const (q : Int) w) false) constant (by omega) positive

/-- The sizes from `m` on are declared, and those before are open. -/
structure Declared (w : Int) (m n : Nat) (dims : List Dimension) : Prop where
  length : dims.length = n
  outer : ∀ d < m, dims[d]? = some .unknown
  inner : ∀ d, m ≤ d → d < n → ∃ v, dims[d]? = some ⟨const v w, true⟩ ∧ HasBits (const v w) w

/-- The sizes before `m` are quotients of strides, and those from there on are declared. -/
structure SizedBy (w : Int) (strides : Nat → Nat) (m n : Nat) (dims : List Dimension) : Prop where
  length : dims.length = n
  first : dims[0]? = some .unknown
  found : ∀ d, 1 ≤ d → d < m →
    dims[d]? = some ⟨const (strides d / strides (d + 1) : Nat) w, false⟩
  declared : ∀ d, m ≤ d → d < n → ∃ v, dims[d]? = some ⟨const v w, true⟩ ∧ HasBits (const v w) w

variable {dims : List Dimension}

theorem declared_replicate (w : Int) (n : Nat) : Declared w n n (List.replicate n .unknown) where
  length := List.length_replicate
  outer d below := by simp [below]
  inner d above below := absurd above (by omega)

theorem Declared.set {v : Int} (declared : Declared w (d + 1) n dims) (inside : d < n)
    (typed : HasBits (const v w) w) : Declared w d n (dims.set d ⟨const v w, true⟩) where
  length := by rw [List.length_set, declared.length]
  outer e below := by
    rw [List.getElem?_set_ne (by omega)]
    exact declared.outer e (by omega)
  inner e above below := by
    rcases Nat.eq_or_lt_of_le above with rfl | above
    · exact ⟨v, List.getElem?_set_self (inside.trans_eq declared.length.symm), typed⟩
    · rw [List.getElem?_set_ne (by omega)]
      exact declared.inner e above below

theorem Declared.sizedBy (declared : Declared w m n dims) (some : 1 ≤ m) (strides : Nat → Nat) :
    SizedBy w strides m n (foundDims w strides (m - 1) dims) where
  length := by simp [foundDims, declared.length]
  first := by simp [foundDims, declared.outer 0 some]
  found d outer below := by
    have here : 1 ≤ d ∧ d ≤ m - 1 := by omega
    simp only [foundDims, List.getElem?_mapIdx, declared.outer d below, Option.map_some, if_pos here]
  declared d above below := by
    obtain ⟨v, known, typed⟩ := declared.inner d above below
    have beyond : ¬ (1 ≤ d ∧ d ≤ m - 1) := by omega
    refine ⟨v, ?_, typed⟩
    simp only [foundDims, List.getElem?_mapIdx, known, Option.map_some, if_neg beyond]

/-- The declared sizes are taken from the inner end up to the first unknown one. -/
private theorem setTrailing_spec (pos : 0 < w) (some : 1 ≤ m) (unknown : ∀ d < m, knownHint? hint d = none)
    (known : ∀ d, m ≤ d → d < n → ∃ size, knownHint? hint d = Option.some size)
    (above : m ≤ k) (inside : k ≤ n) (declared : Declared w k n shape.dims) :
    ∃ dims, Tracked.outcome (setTrailing w hint k) shape = (.ok m, { shape with dims }) ∧
      Declared w m n dims := by
  induction k generalizing shape with
  | zero => omega
  | succ k ih =>
    rcases Nat.eq_or_lt_of_le above with rfl | above
    · refine ⟨shape.dims, ?_, declared⟩
      simp only [setTrailing, unknown k (Nat.lt_succ_self k)]
      rfl
    · obtain ⟨size, hsize⟩ := known k (by omega) inside
      have next := declared.set inside (hasBits_const_bmod pos size)
      obtain ⟨dims, run, done⟩ := @ih (shape.setSize k _ true) (by omega) (by omega) next
      refine ⟨dims, ?_, done⟩
      simp only [setTrailing, hsize, setHinted, Tracked.outcome_bind, Tracked.outcome_lift_except,
        ofInt_eq pos, Tracked.outcome_modify]
      exact run

/-- What is declared of `n` sizes: nothing, or that the first `m` are unknown and what the others
are. -/
inductive Declares : List Int → Nat → Nat → Prop
  | nothing {n : Nat} (pos : 0 < n) : Declares [] n n
  | inner {us ks : List Int} (some : us ≠ []) (unknown : ∀ u ∈ us, u ≤ 0) (known : ∀ k ∈ ks, 0 < k) :
    Declares (us ++ ks) us.length (us.length + ks.length)

namespace Declares

theorem bounds (declares : Declares hint m n) : 1 ≤ m ∧ m ≤ n := by
  cases declares with
  | nothing pos => exact ⟨pos, le_rfl⟩
  | inner some _ _ => exact ⟨List.length_pos_of_ne_nil some, Nat.le_add_right ..⟩

theorem length (declares : Declares hint m n) : hint = [] ∨ hint.length = n := by
  cases declares with
  | nothing _ => exact .inl rfl
  | inner _ _ _ => exact .inr List.length_append

theorem unknown (declares : Declares hint m n) : ∀ d < m, knownHint? hint d = none := by
  intro d below
  cases declares with
  | nothing pos => rfl
  | inner some unknown _ =>
    have open' := unknown _ (List.getElem_mem below)
    simp [knownHint?, List.getElem?_append_left below, List.getElem?_eq_getElem below, isKnownSize,
      open']

theorem known (declares : Declares hint m n) :
    ∀ d, m ≤ d → d < n → ∃ size, knownHint? hint d = some size := by
  intro d above below
  cases declares with
  | nothing pos => omega
  | @inner us ks _ _ known =>
    have inside : d - us.length < ks.length := by omega
    have positive := known _ (List.getElem_mem inside)
    exact ⟨ks[d - us.length], by
      simp [knownHint?, List.getElem?_append_right above, List.getElem?_eq_getElem inside,
        isKnownSize, positive]⟩

end Declares

/-- All valid accesses agree on the number of subscripts. -/
private theorem countDimensions_eq (constant : ConstantRows w n shape.rows) {name : String}
    (named : shape.base.label = .ok name) : (countDimensions shape).outcome = .ok n := by
  have length : ∀ el ∈ shape.validElements, el.subscripts.length = n := fun el hel =>
    constant.length _ (List.mem_map_of_mem hel)
  simp only [countDimensions, Traced.outcome_bind, Traced.outcome_lift, named, ok_bind]
  match h : shape.validElements with
  | [] => exact absurd (by simp [rows, h]) constant.some
  | el :: els =>
    rw [h] at length
    have agree : (els.all fun e => e.subscripts.length = n) = true := by
      refine List.all_eq_true.mpr fun e he => ?_
      simp [length e (by simp [he])]
    simp only [length el (by simp), agree, if_true, Traced.outcome_pure]

theorem findInnerSizes_eq (settings : Settings) (wide : 2 ≤ w)
    (constant : ConstantRows w n shape.rows) (some : 1 ≤ m) (inside : m ≤ n)
    (unknown : ∀ d < m, knownHint? hint d = none) (positive : ∀ d, 1 ≤ d → 0 < stride shape.rows m d) :
    Tracked.outcome (findInnerSizes settings w hint (m - 1)) shape =
      (.ok (), { shape with
        dims := foundDims w (stride shape.rows m) (m - 1) shape.dims
        sized := true }) := by
  have run := findSizesFrom_eq (k := m - 1) settings wide constant inside (by omega) unknown positive
  simp only [findInnerSizes, say, Tracked.outcome_bind, Tracked.outcome_say,
    Tracked.outcome_lift_except, one_small (show 0 < w by omega) (small_one wide)]
  rwa [Nat.sub_add_cancel some, stride_inner] at run

/-- All inner sizes of an array of constant nests are found. -/
theorem findSizes_spec (settings : Settings) (wide : 2 ≤ w) (declares : Declares hint m n)
    (constant : ConstantRows w n shape.rows)
    (positive : ∀ d, 1 ≤ d → 0 < stride shape.rows m d)
    (fresh : shape.dims = List.replicate hint.length .unknown) {name : String}
    (named : shape.base.label = .ok name) :
    ∃ dims, Tracked.outcome (findSizes settings w hint) shape =
        (.ok (), { shape with dims, sized := true }) ∧
      SizedBy w (stride shape.rows m) m n dims := by
  have pos : 0 < w := by omega
  obtain ⟨some, inside⟩ := declares.bounds
  have unknown := declares.unknown
  have known := declares.known
  simp only [findSizes, say, Tracked.outcome_bind, Tracked.outcome_get, Tracked.outcome_lift_except,
    named, Tracked.outcome_say, fresh, List.length_replicate]
  cases declares with
  | nothing _ =>
    have run := @findInnerSizes_eq w [] (shape.withDimensions m) m m settings wide constant some
      le_rfl unknown positive
    refine ⟨_, ?_, (declared_replicate w m).sizedBy some _⟩
    simp only [List.length_nil, if_true, Tracked.outcome_bind, Tracked.outcome_lift,
      countDimensions_eq constant named, if_neg (show ¬ m = 0 by omega), Tracked.outcome_modify,
      Tracked.outcome_say]
    exact run
  | @inner us ks some' _ _ =>
    have total : (us ++ ks).length = us.length + ks.length := List.length_append
    obtain ⟨dims, run, declared⟩ := @setTrailing_spec w _ shape _ _ (us.length + ks.length) pos some
      unknown known inside le_rfl (by
        rw [fresh, total]
        exact declared_replicate w _)
    have run' := @findInnerSizes_eq w (us ++ ks) { shape with dims } us.length _ settings wide constant
      some inside unknown positive
    refine ⟨_, ?_, declared.sizedBy some _⟩
    simp only [total, if_neg (show ¬ us.length + ks.length = 0 by omega), ne_eq, not_true_eq_false,
      if_false, Tracked.outcome_bind, run, if_neg (show ¬ us.length = 0 by omega), unknown 0 some]
    exact run'

end ArrayShape

end ShapeRecovery
