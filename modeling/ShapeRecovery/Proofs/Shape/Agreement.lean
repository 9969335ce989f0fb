import ShapeRecovery.Proofs.Expr.Affine
import ShapeRecovery.Proofs.Shape.Frame
import ShapeRecovery.Proofs.Shape.Subscripts

namespace ShapeRecovery

open ShapeRecovery.Expr

namespace ArrayShape

variable {settings : Settings} {w iw : Int} {hint : List Int} {shape sized : ArrayShape}
  {n k d : Nat} {strides : Nat → Nat}

/-- Rows of `n` subscripts each, affine in all dimensions but the last. -/
structure AffineRows (w : Int) (n : Nat) (rows : List (List Expr)) : Prop where
  length : ∀ row ∈ rows, row.length = n
  affine : ∀ row ∈ rows, ∀ s ∈ row.take (n - 1), Affine w s

/-- The number may stand for the sizes that lie inside of the first `d` dimensions: it divides the
contents of their subscripts. -/
structure StrideOf (w : Int) (rows : List (List Expr)) (d p : Nat) : Prop where
  positive : 0 < p
  bounded : p < nestBound w
  divides : ∀ row ∈ rows, ∀ s ∈ row.take d, p ∣ content s

theorem StrideOf.small {rows : List (List Expr)} {p : Nat} (stride : StrideOf w rows d p) :
    Small w p :=
  (searchable_of_bounded (show (p : Int).natAbs < nestBound w from stride.bounded)).1

theorem StrideOf.of_le {rows : List (List Expr)} {p : Nat} (stride : StrideOf w rows k p)
    (le : d ≤ k) : StrideOf w rows d p where
  positive := stride.positive
  bounded := stride.bounded
  divides row mem s outer := stride.divides row mem s (List.take_subset_take_left row le outer)

private theorem strideOf_one (wide : 2 ≤ w) (rows : List (List Expr)) (d : Nat) : StrideOf w rows d 1 where
  positive := one_pos
  bounded := lt_min (by decide) (small_one wide)
  divides _ _ _ _ := one_dvd _

/-- A constant size is the common divisor of the outer subscripts over the sizes found before. -/
private theorem estimateSize_affine (wide : 2 ≤ w) (rows : AffineRows w n shape.rows) (inside : d < n)
    {p : Nat} (inner : StrideOf w shape.rows d p) {v b : Int} (nonzero : v ≠ 0)
    (run : (estimateSize settings w shape d (const p w)).outcome = .ok (const v b)) :
    ∃ c : Nat, p ∣ c ∧ const v b = const (c / p : Nat) w ∧ StrideOf w shape.rows d c := by
  have pos : 0 < w := by omega
  simp only [estimateSize, dividedSubscripts_eq rows.length inside.le, Traced.outcome_bind,
    Traced.outcome_lift, ok_bind] at run
  generalize hsubs : (shape.rows.flatMap fun row => (row.take d).reverse) = subs at run
  have mem (s : Expr) : s ∈ subs ↔ ∃ row ∈ shape.rows, s ∈ row.take d := by simp [← hsubs]
  have affine : ∀ s ∈ subs, Affine w s := by
    intro s hs
    obtain ⟨row, hrow, hs⟩ := (mem s).mp hs
    exact rows.affine row hrow s (List.take_subset_take_left row (by omega) hs)
  have shared (c : Nat) :
      c ∣ commonContent subs ↔ ∀ row ∈ shape.rows, ∀ s ∈ row.take d, c ∣ content s := by
    rw [dvd_commonContent]
    constructor
    · exact fun all row hrow s hs => all s ((mem s).mpr ⟨row, hrow, hs⟩)
    · intro all s hs
      obtain ⟨row, hrow, hs⟩ := (mem s).mp hs
      exact all row hrow s hs
  obtain ⟨-, -, run⟩ := bind_eq_ok.mp run
  by_cases none : subs = []
  · subst none
    simp only [List.isEmpty_nil, if_true, Traced.outcome_lift, zero_eq pos] at run
    obtain ⟨rfl, -⟩ := const.inj (Except.ok.inj run)
    exact absurd rfl nonzero
  simp only [List.isEmpty_eq_false_iff.mpr none, Bool.false_eq_true, if_false, Traced.outcome_bind,
    Traced.outcome_lift, Traced.outcome_say, Traced.outcome_pure] at run
  obtain ⟨g, search, run⟩ := bind_eq_ok.mp run
  obtain ⟨⟨q, r⟩, division, run⟩ := bind_eq_ok.mp run
  obtain ⟨-, -, run⟩ := bind_eq_ok.mp run
  obtain ⟨-, -, run⟩ := bind_eq_ok.mp run
  obtain ⟨-, -, run⟩ := bind_eq_ok.mp run
  obtain ⟨-, -, run⟩ := bind_eq_ok.mp run
  obtain rfl : q = const v b := Except.ok.inj run
  obtain ⟨found, sign⟩ := commonDivisor_affine settings wide none affine search
  obtain ⟨c, common, multiple, some, bounded, size⟩ := found.constant_quotient
    settings.indexWidth wide sign inner.positive inner.small ((shared p).mpr inner.divides) nonzero
    division
  exact ⟨c, multiple, size, some, bounded, (shared c).mp common⟩

/-- What is done for one dimension, where its size is a constant in the end. -/
private theorem findSizesFrom_step {inner : Expr} (inside : k + 1 < shape.dims.length)
    (run : Tracked.outcome (findSizesFrom settings w [] (k + 1) inner) shape = (.ok (), sized))
    (constant : ∀ dim ∈ sized.dims.drop 1, dim.size.isConst = true) :
    ∃ size factor next, (estimateSize settings w shape (k + 1) inner).outcome = .ok size ∧
      size.isZero = false ∧ size.isConst = true ∧ resize w size = .ok factor ∧
      productOf settings.indexWidth [inner, factor] = .ok next ∧
      Tracked.outcome (findSizesFrom settings w [] k next) (shape.setSize (k + 1) size false) =
        (.ok (), sized) := by
  have unknown : knownHint? [] (k + 1) = none := rfl
  -- The dimensions outside of this one are worked on later, and its own size stays.
  have stays {x : Tracked ArrayShape Unit} {size : Expr}
      (kept : Tracked.Keeps (fun shape => shape.dims[k + 1]?) x)
      (rest : Tracked.outcome x (shape.setSize (k + 1) size false) = (.ok (), sized)) :
      size.isConst = true := by
    have still := kept.same (shape.setSize (k + 1) size false)
    rw [rest] at still
    have here : sized.dims[k + 1]? = some ⟨size, false⟩ :=
      still.trans (List.getElem?_set_self inside)
    refine constant ⟨size, false⟩ (List.mem_of_getElem? (i := k) ?_)
    rwa [List.getElem?_drop, Nat.add_comm]
  simp only [findSizesFrom, say, unknown, Tracked.say_bind, Tracked.get_bind] at run
  obtain ⟨size, estimate, run⟩ := Tracked.lift_bind_run.mp run
  split at run
  · rw [Tracked.say_bind, Tracked.modify_bind] at run
    have number := stays (leaveOpen_keeps _ _ _ _ fun _ _ _ _ below =>
      List.getElem?_set_ne (by omega)) run
    simp [isConst] at number
  · next found =>
    rw [Tracked.modify_bind] at run
    obtain ⟨t, -, run⟩ := Tracked.liftExcept_bind_run.mp run
    rw [Tracked.say_bind] at run
    obtain ⟨factor, resized, run⟩ := Tracked.liftExcept_bind_run.mp run
    obtain ⟨next, product, run⟩ := Tracked.liftExcept_bind_run.mp run
    have number := stays (findSizesFrom_keeps _ _ _ _ _ (fun _ _ _ _ below =>
      List.getElem?_set_ne (by omega)) fun _ => rfl) run
    exact ⟨size, factor, next, estimate, by simp_all, number, resized, product, run⟩

/-- Numbers for the dimensions from `1` to `k`, each a multiple of the next one. -/
structure Strides (w : Int) (rows : List (List Expr)) (k : Nat) (strides : Nat → Nat) : Prop where
  each : ∀ d, 1 ≤ d → d ≤ k → StrideOf w rows d (strides d)
  step : ∀ d, 1 ≤ d → d < k → strides (d + 1) ∣ strides d

private theorem Strides.extend {rows : List (List Expr)} {p : Nat} (found : Strides w rows k strides)
    (inner : StrideOf w rows (k + 1) p) (multiple : p ∣ strides k) :
    Strides w rows (k + 1) (Function.update strides (k + 1) p) where
  each d outer le := by
    rcases Nat.eq_or_lt_of_le le with rfl | below
    · simpa using inner
    · rw [Function.update_of_ne below.ne]
      exact found.each d outer (by omega)
  step d outer below := by
    rw [Function.update_of_ne below.ne]
    rcases Nat.eq_or_lt_of_le below with same | below
    · obtain rfl : d = k := by omega
      simpa using multiple
    · rw [Function.update_of_ne below.ne]
      exact found.step d outer (by omega)

/-- Where all sizes that the search ends with are constants, they are quotients of strides. -/
private theorem findSizesFrom_affine (wide : 2 ≤ w) (rows : AffineRows w n shape.rows) (below : k < n)
    {p : Nat} (inner : StrideOf w shape.rows (k + 1) p) (count : shape.dims.length = n)
    (run : Tracked.outcome (findSizesFrom settings w [] k (const p w)) shape = (.ok (), sized))
    (constant : ∀ dim ∈ sized.dims.drop 1, dim.size.isConst = true) :
    ∃ strides, strides (k + 1) = p ∧ Strides w shape.rows (k + 1) strides ∧
      sized = { shape with dims := foundDims w strides k shape.dims, sized := true } := by
  induction k generalizing shape p with
  | zero =>
    refine ⟨fun _ => p, rfl, ⟨fun d _ le => inner.of_le le, fun _ _ _ => dvd_rfl⟩, ?_⟩
    rw [foundDims_zero]
    exact (Prod.mk.inj run).2.symm
  | succ k ih =>
    obtain ⟨size, factor, next, estimate, nonzero, number, resized, product, rest⟩ :=
      findSizesFrom_step (count.symm ▸ below) run constant
    obtain ⟨v, b, rfl⟩ : ∃ v b, size = const v b := by
      cases size <;> simp_all [isConst]
    obtain ⟨c, multiple, same, outer⟩ := estimateSize_affine wide rows below
      (inner.of_le (Nat.le_succ _)) (by simpa [isZero] using nonzero) estimate
    rw [same, resize_const] at resized
    obtain rfl := Except.ok.inj resized
    rw [productOf_quotient _ wide outer.small inner.small multiple] at product
    obtain rfl := Except.ok.inj product
    obtain ⟨strides, last, found, rfl⟩ := @ih (shape.setSize (k + 1) (const v b) false) rows
      (by omega) c outer (by simpa [setSize] using count) rest
    refine ⟨Function.update strides (k + 2) p, by simp, found.extend inner (last ▸ multiple), ?_⟩
    have still : ∀ d ≤ k + 1, strides d = Function.update strides (k + 2) p d := fun d le =>
      (Function.update_of_ne (by omega) p strides).symm
    rw [foundDims_congr still, ← foundDims_succ, Function.update_self,
      ← still (k + 1) le_rfl, last, ← same]
    rfl

/-- Where dimensions are counted, all rows have as many subscripts. -/
theorem length_of_countDimensions (run : (countDimensions shape).outcome = .ok n) (some : n ≠ 0) :
    ∀ row ∈ shape.rows, row.length = n := by
  simp only [countDimensions, Traced.outcome_bind, Traced.outcome_lift] at run
  obtain ⟨name, -, run⟩ := bind_eq_ok.mp run
  unfold rows
  rcases valid : shape.validElements with _ | ⟨el, els⟩
  · simp
  · simp only [valid] at run
    split at run
    · next agree =>
      obtain rfl := Except.ok.inj run
      simpa using agree
    · simp only [Traced.outcome_bind, Traced.outcome_say, ok_bind, Traced.outcome_pure] at run
      exact absurd (Except.ok.inj run).symm some

/-- The sizes that are found without a declaration, if they are constants. Where the accesses do not
tell the number of dimensions, nothing is done. -/
theorem findSizes_affine (wide : 2 ≤ w) (open' : shape.dims = [])
    (affine : ∀ row ∈ shape.rows, ∀ s ∈ row.dropLast, Affine w s)
    (run : Tracked.outcome (findSizes settings w hint) shape = (.ok (), sized))
    (constant : ∀ dim ∈ sized.dims.drop 1, dim.size.isConst = true) :
    (∃ name, shape.base.label = .ok name) ∧ (sized = shape ∨
      ∃ n strides dims, 1 ≤ n ∧ AffineRows w n shape.rows ∧ Strides w shape.rows n strides ∧
        strides n = 1 ∧ SizedBy w strides n n dims ∧ sized = { shape with dims, sized := true }) := by
  simp only [findSizes, say, Tracked.get_bind] at run
  obtain ⟨name, named, run⟩ := Tracked.liftExcept_bind_run.mp run
  refine ⟨⟨name, named⟩, ?_⟩
  simp only [Tracked.say_bind, open', List.length_nil, if_true] at run
  obtain ⟨n, counted, run⟩ := Tracked.lift_bind_run.mp run
  split at run
  · exact .inl (Prod.mk.inj run).2.symm
  · next some =>
    rw [Tracked.modify_bind, Tracked.say_bind, findInnerSizes, say, Tracked.say_bind] at run
    obtain ⟨one, unit, run⟩ := Tracked.liftExcept_bind_run.mp run
    obtain rfl := Except.ok.inj ((one_small (by omega) (small_one wide)).symm.trans unit)
    have length := length_of_countDimensions counted some
    have rows : AffineRows w n shape.rows := by
      refine ⟨length, fun row mem s outer => affine row mem s ?_⟩
      rwa [List.dropLast_eq_take, length row mem]
    obtain ⟨strides, last, each, rfl⟩ := @findSizesFrom_affine _ w (shape.withDimensions n) _ n (n - 1)
      wide rows (by omega) 1 (strideOf_one wide _ _) List.length_replicate run constant
    rw [Nat.sub_add_cancel (Nat.pos_of_ne_zero some)] at last each
    exact .inr ⟨n, strides, _, Nat.pos_of_ne_zero some, rows, each, last,
      (declared_replicate w n).sizedBy (Nat.pos_of_ne_zero some) strides, rfl⟩

/-- `el` is the access `raw`, which is still valid if sizes are inferred from it; its first `k`
subscripts are as they were then. -/
structure StaysValid (k : Nat) (raw el : Element) : Prop where
  revises : raw.Revises el
  wellFormed : ∀ s ∈ el.subscripts, s.WellFormed
  isValid : raw.isElement = true → raw.isValid = true → el.isValid = true
  outer : raw.isElement = true → raw.isValid = true →
    el.subscripts.take k = raw.subscripts.take k

/-- One step inward: a stride divides the subscript of the dimension that it lies inside of. -/
private theorem normalizeElement_staysValid {rows : List (List Expr)} {raw el : Element} {p : Nat} (iw : Int)
    (wide : 2 ≤ w) (affine : AffineRows w n rows) (below : k + 1 < n)
    (inner : StrideOf w rows (k + 1) p)
    (member : raw.isElement = true → raw.isValid = true → raw.subscripts ∈ rows)
    (before : StaysValid (k + 1) raw el) :
    ∃ el', (normalizeElement iw n k (const p w) el).outcome = .ok el' ∧ StaysValid k raw el' := by
  have pos : 0 < w := by omega
  by_cases part : raw.isElement = true ∧ raw.isValid = true
  · obtain ⟨kind, valid⟩ := part
    have row := member kind valid
    have count := affine.length _ row
    have same := before.outer kind valid
    obtain ⟨s, here⟩ : ∃ s, raw.subscripts[k]? = some s :=
      ⟨_, List.getElem?_eq_getElem (show k < raw.subscripts.length by omega)⟩
    have first : s ∈ raw.subscripts.take (k + 1) :=
      List.mem_of_getElem? ((List.getElem?_take_of_lt (Nat.lt_succ_self k)).trans here)
    have here' : el.subscripts[k]? = some s := by
      rw [← List.getElem?_take_of_lt (Nat.lt_succ_self k), same,
        List.getElem?_take_of_lt (Nat.lt_succ_self k), here]
    have nest := affine.affine _ row s (List.take_subset_take_left _ (by omega) first)
    have fit := (nest.hasBits pos).wellFormed
    obtain ⟨q, run⟩ := quotRem_affine iw wide nest inner.positive inner.small
      (inner.divides _ row s first)
    obtain ⟨q', r, run', fitQ, fitR⟩ := fit.quotRem_const iw (inner.small.hasBits pos)
    obtain ⟨rfl, rfl⟩ := Prod.mk.inj (Except.ok.inj (run.symm.trans run'))
    have done := normalizeElement_eq (before.isValid kind valid) (before.revises.length.trans count)
      here' fit run fitQ fitR
    rw [if_pos (show (const 0 w).isZero = true from rfl)] at done
    refine ⟨_, done, before.revises.trans (normalizeElement_revises done), fun e he => ?_,
      fun _ _ => before.isValid kind valid, fun _ _ => ?_⟩
    · rcases List.mem_or_eq_of_mem_set he with he | rfl
      · exact before.wellFormed e he
      · exact fitQ
    · have shorter := congrArg (List.take k) same
      simpa [List.take_set_of_le le_rfl, List.take_take] using shorter
  · obtain ⟨el', run, -, -, fit⟩ := normalizeElement_total iw (inner.small.hasBits pos)
      (show k < n by omega) before.wellFormed
    exact ⟨el', run, before.revises.trans (normalizeElement_revises run), fit,
      fun kind valid => absurd ⟨kind, valid⟩ part, fun kind valid => absurd ⟨kind, valid⟩ part⟩

theorem normalize_undimensioned (settings : Settings) (pos : 0 < w) {name : String}
    (named : shape.base.label = .ok name) (open' : shape.dims = []) (done : shape.sized = true) :
    Tracked.outcome (normalize settings w) shape = (.ok (), shape) := by
  simp only [normalize, Tracked.outcome_bind, Tracked.outcome_get, done, Bool.not_true,
    Bool.false_eq_true, if_false, Tracked.outcome_lift_except, named, Tracked.outcome_say, open',
    List.drop_nil, List.any_nil, one_eq pos]
  rfl

/-- Inference and normalization agree on affine subscripts: where constant sizes are found for all
inner dimensions, normalization ends, and every access that they were inferred from stays valid. -/
theorem normalize_keeps_inferred (settings : Settings) (hint : List Int) (wide : 2 ≤ w)
    (fit : ∀ el ∈ shape.elements, ∀ s ∈ el.subscripts, s.WellFormed) (open' : shape.dims = [])
    (affine : ∀ el ∈ shape.validElements, ∀ s ∈ el.subscripts.dropLast, Affine w s)
    (found : Tracked.outcome (findSizes settings w hint) shape = (.ok (), sized))
    (done : sized.sized = true)
    (constant : ∀ dim ∈ sized.dims.drop 1, dim.size.isConst = true) :
    ∃ els, Tracked.outcome (normalize settings w) sized = (.ok (), { sized with elements := els }) ∧
      List.Forall₂ (fun raw el => raw.Revises el ∧
        (raw.isElement = true → raw.isValid = true → el.isValid = true)) shape.elements els := by
  obtain ⟨⟨name, named⟩, rfl | ⟨n, strides, dims, some, rows, each, last, sizedBy, rfl⟩⟩ :=
    findSizes_affine wide open' (List.forall_mem_map.mpr affine) found constant
  · exact ⟨sized.elements, normalize_undimensioned settings (by omega) named open' done,
      List.forall₂_same.mpr fun raw _ => ⟨.refl raw, fun _ valid => valid⟩⟩
  have member : ∀ raw ∈ shape.elements, raw.isElement = true → raw.isValid = true →
      raw.subscripts ∈ shape.rows := fun raw mem kind valid =>
    List.mem_map_of_mem (List.mem_filter.mpr ⟨mem, by simp [kind, valid]⟩)
  have start : List.Forall₂ (StaysValid (n - 1)) shape.elements shape.elements :=
    List.forall₂_same.mpr fun raw mem =>
      ⟨.refl raw, fit raw mem, fun _ valid => valid, fun _ _ => rfl⟩
  have step (k : Nat) (below : k + 1 < n) (raw : Element) (mem : raw ∈ shape.elements) (el : Element)
      (before : StaysValid (k + 1) raw el) :=
    normalizeElement_staysValid settings.indexWidth wide rows below
      (each.each (k + 1) (by omega) below.le) (member raw mem) before
  obtain ⟨els, run, stay⟩ := @normalize_related w { shape with dims, sized := true } n n strides _ _
    name settings wide some le_rfl last (fun d outer le => (each.each d outer le).small) each.step
    sizedBy rfl named step start
  exact ⟨els, run, stay.imp fun raw el h => ⟨h.revises, h.isValid⟩⟩

/-- An array with two accesses, which differ in the outer subscript. -/
def twoRows (a b : Expr) : ArrayShape :=
  let base : Pointer := .object ⟨"A", 1⟩ none
  let column := unknown ⟨"k", 3⟩ 64
  { ofBase base with elements := [⟨base, [a, column], true, true⟩, ⟨base, [b, column], true, true⟩] }

private theorem twoRows_typed {a b : Expr} (first : HasBits a 64) (second : HasBits b 64) :
    ∀ el ∈ (twoRows a b).elements, ∀ s ∈ el.subscripts, HasBits s 64 := by
  have column : HasBits (unknown ⟨"k", 3⟩ 64) 64 := .unknown (by decide)
  simpa [twoRows] using ⟨⟨first, column⟩, second, column⟩

/-- A subscript that moves in steps of eight from the multiple of eight by an unknown. -/
def movingRow : Expr :=
  recurrence (product [const 8 64, unknown ⟨"n", 4⟩ 64]) (const 8 64) outerLoop

theorem affine_const {v : Int} (some : v ≠ 0) (bounded : v.natAbs < nestBound w) :
    Affine w (const v w) :=
  .linear (.monomial (.const some bounded))
    ⟨⟨_, List.mem_singleton_self _, rfl⟩, by simp [factorsOf, isOpened]⟩

private theorem movingRow_affine : Affine 64 movingRow := by
  have scale : Leaf 64 (unknown ⟨"n", 4⟩ 64) := ⟨rfl, .unknown (by decide)⟩
  have start : Monomial 64 (product [const 8 64, unknown ⟨"n", 4⟩ 64]) :=
    .scaled (by decide) (by decide) (by decide) (by simp) (by simpa using scale)
  refine .recurrence (.linear (.monomial start) ⟨⟨const 8 64, by simp [factorsOf], rfl⟩, ?_⟩)
    (affine_const (by decide) (by decide))
  simp [factorsOf, isOpened]

theorem normalize_keeps_inferred_moving : ∃ sized els,
    Tracked.outcome (findSizes ⟨64, false⟩ 64 []) (twoRows movingRow (const 24 64)) =
      (.ok (), sized) ∧ sized.sizes = [.uncomputable, const 8 64] ∧
    Tracked.outcome (normalize ⟨64, false⟩ 64) sized = (.ok (), { sized with elements := els }) ∧
    List.Forall₂ (fun raw el => raw.Revises el ∧
      (raw.isElement = true → raw.isValid = true → el.isValid = true))
        (twoRows movingRow (const 24 64)).elements els := by
  have row := movingRow_affine
  have place : Affine 64 (const 24 64) := affine_const (by decide) (by decide)
  have found : Tracked.outcome (findSizes ⟨64, false⟩ 64 []) (twoRows movingRow (const 24 64)) =
      (.ok (), { twoRows movingRow (const 24 64) with
        dims := [.unknown, ⟨const 8 64, false⟩]
        sized := true }) := by
    decide +kernel
  have typed := twoRows_typed (row.hasBits (by decide)) (place.hasBits (by decide))
  obtain ⟨els, run, stay⟩ := normalize_keeps_inferred ⟨64, false⟩ [] (by decide)
    (fun el mem s hs => (typed el mem s hs).wellFormed) rfl
    (by simpa [validElements, twoRows] using ⟨row, place⟩) found rfl (by simp [isConst])
  exact ⟨_, els, found, rfl, run, stay⟩

/-- Accesses with a subscript that moves in steps of eight and one that is a quotient. -/
def besideQuotient : ArrayShape :=
  twoRows (recurrence (const 0 64) (const 8 64) outerLoop)
    (quotient (unknown ⟨"x", 5⟩ 64) (const 3 64))

private theorem besideQuotient_typed : ∀ el ∈ besideQuotient.elements, ∀ s ∈ el.subscripts, HasBits s 64 := by
  decide +kernel

/-- The search passes over a quotient, and normalization does not: it gives up the access. -/
theorem normalize_gives_up_quotient :
    (∀ el ∈ besideQuotient.elements, ∀ s ∈ el.subscripts, HasBits s 64) ∧ besideQuotient.dims = [] ∧
      ∃ sized done, Tracked.outcome (findSizes ⟨64, false⟩ 64 []) besideQuotient = (.ok (), sized) ∧
        sized.sized = true ∧ (∀ dim ∈ sized.dims.drop 1, dim.size.isConst = true) ∧
        Tracked.outcome (normalize ⟨64, false⟩ 64) sized = (.ok (), done) ∧
        ∃ raw el, besideQuotient.elements[1]? = some raw ∧ done.elements[1]? = some el ∧
          raw.isElement = true ∧ raw.isValid = true ∧ el.isValid = false := by
  let sized : ArrayShape := { besideQuotient with
    dims := [.unknown, ⟨const 8 64, false⟩]
    sized := true }
  have found : Tracked.outcome (findSizes ⟨64, false⟩ 64 []) besideQuotient = (.ok (), sized) := by
    decide +kernel
  have ends : (Tracked.outcome (normalize ⟨64, false⟩ 64) sized).1 = .ok () := by decide +kernel
  have second : ((Tracked.outcome (normalize ⟨64, false⟩ 64) sized).2.elements[1]?).map
      Element.isValid = some false := by
    decide +kernel
  obtain ⟨el, here, invalid⟩ := Option.map_eq_some_iff.mp second
  exact ⟨besideQuotient_typed, rfl, sized, _, found, rfl, by simp [sized, isConst],
    Prod.ext ends rfl, _, el, rfl, here, rfl, rfl, invalid⟩

end ArrayShape

end ShapeRecovery
