import ShapeRecovery.Proofs.Shape.Analysis
import ShapeRecovery.Proofs.Shape.Subscripts

namespace ShapeRecovery

open ShapeRecovery.Expr Collection

/-- Subscripts with the zeros before them that an access to one element of an object of `n`
dimensions lacks. -/
def padded (width : Int) (n : Nat) (kind : AccessKind) (subs : List Expr) : List Expr :=
  (if kind.isElement then List.replicate (n - subs.length) (const 0 width) else []) ++ subs

/-- The subscripts of an access to an object of `n` dimensions, zero for an unknown number. -/
def Access.subscripts (width : Int) (n : Nat) (acc : Access) : Except Fault (List Expr) := do
  let subs ← chainSubscripts (acc.ptr.outerSteps (if n = 0 then none else some n))
  return padded width n acc.kind subs

variable {settings : Settings} {hint : Hint} {sizes : List Int} {w : Int} {base : Pointer} {acc : Access}
  {shape : ArrayShape} {m n : Nat}

private theorem paddingFor_eq (pos : 0 < w) (n : Nat) (kind : AccessKind) (subs : List Expr) :
    (paddingFor w n kind subs).outcome =
      .ok (if kind.isElement then List.replicate (n - subs.length) (const 0 w) else []) := by
  unfold paddingFor
  cases kind.isElement with
  | false => rfl
  | true =>
    by_cases short : subs.length < n
    · simp only [Bool.true_and, short, decide_true, if_true, Traced.outcome_bind,
        Traced.outcome_lift, zero_eq pos, ok_bind, Traced.outcome_say, Traced.outcome_pure]
    · have none : n - subs.length = 0 := by omega
      simp [short, none]

private theorem padded_wellFormed (pos : 0 < w) (n : Nat) (kind : AccessKind) {subs : List Expr}
    (fit : ∀ s ∈ subs, s.WellFormed) : ∀ s ∈ padded w n kind subs, s.WellFormed := by
  intro s hs
  rcases List.mem_append.mp hs with hs | hs
  · have zero : s = const 0 w := by
      split at hs
      · exact List.eq_of_mem_replicate hs
      · simp at hs
    rw [zero]
    exact (hasBits_zero pos).wellFormed
  · exact fit s hs

/-- A well-formed access has an entry with its subscripts. -/
theorem entryOf_eq (hint : Hint) (pos : 0 < w) (fit : acc.ptr.WellFormed)
    (object : acc.ptr.accessedObject = base) :
    ∃ subs, acc.subscripts w (told hint base).length = .ok subs ∧ (∀ s ∈ subs, s.WellFormed) ∧
      entryOf hint w acc = .ok (elementOf (told hint base).length acc subs) := by
  obtain ⟨p, hp⟩ := fit.text
  obtain ⟨b, hb⟩ := fit.accessedObject.text
  rw [object] at hb
  generalize hn : (told hint base).length = n
  obtain ⟨subs, hsubs, all⟩ := chainSubscripts_total (fit.outerSteps (if n = 0 then none else some n))
  have wellFormed := padded_wellFormed pos n acc.kind all
  have shown : (describe n (elementOf n acc (padded w n acc.kind subs))).outcome = .ok () := by
    simp only [describe, Traced.outcome_bind, Traced.outcome_say, ok_bind]
    exact sayTexts_total _ _ wellFormed
  refine ⟨padded w n acc.kind subs, ?_, wellFormed, ?_⟩
  · simp only [Access.subscripts, hsubs, ok_bind, pure_eq_ok]
  · simp only [entryOf, hp, object, hb, hn, hsubs, paddingFor_eq pos, ok_bind]
    change (do let _ ← (describe n (elementOf n acc (padded w n acc.kind subs))).outcome; _) = _
    rw [shown]
    rfl

theorem ArrayShape.SizedBy.wellFormed {rows : List (List Expr)} {dims : List Dimension} (wide : 2 ≤ w)
    (constant : ConstantRows w n rows) (inside : m ≤ n)
    (sized : SizedBy w (stride rows m) m n dims) : ∀ dim ∈ dims, dim.size.WellFormed := by
  intro dim mem
  obtain ⟨d, here⟩ := List.mem_iff_getElem?.mp mem
  have below := (List.getElem?_eq_some_iff.mp here).1
  rcases Nat.eq_zero_or_pos d with rfl | outer
  · rw [sized.first, Option.some.injEq] at here
    rw [← here]
    exact .inl rfl
  · by_cases open' : d < m
    · rw [sized.found d outer open', Option.some.injEq] at here
      rw [← here]
      exact ((constant.size_small wide outer inside).hasBits (by omega)).wellFormed
    · obtain ⟨v, known, typed⟩ := sized.declared d (by omega) (sized.length ▸ below)
      rw [known, Option.some.injEq] at here
      rw [← here]
      exact typed.wellFormed

/-- Sizes are found from the inner dimensions outward, then the subscripts are divided. -/
theorem recover_spec (settings : Settings) (wide : 2 ≤ w) (declares : ArrayShape.Declares sizes m n)
    (constant : ConstantRows w n shape.rows) (positive : ∀ d, 1 ≤ d → 0 < stride shape.rows m d)
    (fresh : shape.dims = List.replicate sizes.length .unknown)
    (valid : ∀ el ∈ shape.elements, el.isElement = true → el.isValid = true)
    (fit : shape.base.WellFormed) (fit' : ∀ el ∈ shape.elements, el.WellFormed) :
    ∃ done, (Analysis.recover settings w sizes shape).outcome = .ok done ∧ done.sized = true ∧
      ArrayShape.SizedBy w (stride shape.rows m) m n done.dims ∧
      List.Forall₂ (ArrayShape.DividedFrom (stride shape.rows m) 0) shape.elements done.elements ∧
      done.WellFormed := by
  obtain ⟨some, inside⟩ := declares.bounds
  obtain ⟨t, ht⟩ := fit.text
  obtain ⟨name, named⟩ := Pointer.label_of_text ht
  obtain ⟨dims, found, sized⟩ :=
    ArrayShape.findSizes_spec settings wide declares constant positive fresh named
  have member : ∀ el ∈ shape.elements, el.isElement = true →
      el.isValid = true ∧ el.subscripts ∈ shape.rows := by
    intro el mem kind
    have ok := valid el mem kind
    exact ⟨ok, List.mem_map_of_mem (List.mem_filter.mpr ⟨mem, by simp [kind, ok]⟩)⟩
  have inferred := List.forall_mem_map.mpr (sized.wellFormed wide constant inside)
  obtain ⟨els, divided, each⟩ := @ArrayShape.normalize_spec w { shape with dims, sized := true } m n
    shape.rows settings wide constant some inside positive sized rfl member
    ⟨fit, inferred, fit'⟩
  refine ⟨{ shape with dims, sized := true, elements := els }, ?_, rfl, sized, each, fit, inferred, ?_⟩
  · simp only [Analysis.recover, Traced.outcome_bind, Tracked.outcome_finalState, found, divided,
      Except.map, ok_bind, if_true]
  · intro el mem
    obtain ⟨raw, -, kept⟩ := exists_of_forall₂ each mem
    exact kept.wellFormed

/-- `el` is the entry of the well-formed access `acc` to an object of `k` dimensions, zero for an
unknown number. -/
structure Recorded (w : Int) (base : Pointer) (k : Nat) (acc : Access) (el : Element) : Prop where
  entry : ∃ subs, acc.subscripts w k = .ok subs ∧ el = elementOf k acc subs
  wellFormed : el.WellFormed
  object : objectOf el = base

variable {accs : List Access} {mine els : List Element} {rows : List (List Expr)} {k : Nat}

private theorem recorded_of_wellFormed (hint : Hint) (pos : 0 < w) (fit : ∀ acc ∈ accs, acc.ptr.WellFormed)
    (own : ∀ acc ∈ accs, acc.ptr.accessedObject = base) :
    ∃ mine, accs.mapM (entryOf hint w) = .ok mine ∧
      List.Forall₂ (Recorded w base (told hint base).length) accs mine := by
  induction accs with
  | nil => exact ⟨[], rfl, .nil⟩
  | cons acc accs ih =>
    have object := own acc (by simp)
    obtain ⟨subs, hsubs, all, entry⟩ := entryOf_eq hint pos (fit acc (by simp)) object
    obtain ⟨mine, run, recorded⟩ :=
      ih (fun a ha => fit a (by simp [ha])) fun a ha => own a (by simp [ha])
    refine ⟨_ :: mine, ?_, .cons ⟨⟨subs, hsubs, rfl⟩, ⟨fit acc (by simp), all⟩, object⟩ recorded⟩
    simp [List.mapM_cons, entry, run]

/-- The rows of the entries that access one element. -/
private theorem rows_of_recorded (recorded : List.Forall₂ (Recorded w base k) accs mine)
    (run : (accs.filter fun acc => acc.kind.isElement).mapM (Access.subscripts w k) = .ok rows) :
    (mine.filter fun el => el.isElement).map Element.subscripts = rows := by
  induction recorded generalizing rows with
  | nil =>
    rw [List.filter_nil, List.mapM_nil] at run
    injection run
  | @cons acc el accs mine here _ ih =>
    obtain ⟨subs, hsubs, rfl⟩ := here.entry
    cases kind : acc.kind.isElement with
    | false =>
      rw [List.filter_cons_of_neg (by simp [kind])] at run
      simpa [elementOf, kind] using ih run
    | true =>
      rw [List.filter_cons_of_pos (by simp [kind]), List.mapM_cons, hsubs, ok_bind] at run
      obtain ⟨rows', run', made⟩ := bind_eq_ok.mp run
      injection made with made
      simp [elementOf, kind, ih run', ← made]

/-- An entry of an access to one element with all its subscripts divided. -/
def exactElement (strides : Nat → Nat) (acc : Access) (row : List Expr) : Element where
  ptr := acc.ptr
  subscripts := row.mapIdx fun k s => shrink (strides (k + 1)) s
  isElement := true
  isValid := true

private theorem eq_exactElement {strides : Nat → Nat} {subs : List Expr} {el : Element}
    (kind : acc.kind.isElement = true)
    (divided : ArrayShape.DividedFrom strides 0 (elementOf k acc subs) el) :
    el = exactElement strides acc subs := by
  have ptr := divided.ptr
  have isElement := divided.isElement.trans kind
  have isValid := divided.isValid kind
  have subscripts := divided.subscripts kind
  cases el
  simp only [elementOf] at ptr isElement isValid subscripts
  subst ptr isElement isValid subscripts
  simp [exactElement, divideFrom]

private theorem exactElements_of_divided {strides : Nat → Nat}
    (recorded : List.Forall₂ (Recorded w base k) accs mine)
    (divided : List.Forall₂ (ArrayShape.DividedFrom strides 0) mine els) :
    (els.filter fun el => el.isElement) =
      List.zipWith (exactElement strides) (accs.filter fun acc => acc.kind.isElement)
        ((mine.filter fun el => el.isElement).map Element.subscripts) := by
  induction recorded generalizing els with
  | nil =>
    cases divided
    rfl
  | @cons acc raw accs mine here _ ih =>
    cases divided with
    | @cons _ el _ els first rest =>
      obtain ⟨subs, -, rfl⟩ := here.entry
      have rest := ih rest
      cases kind : acc.kind.isElement with
      | false =>
        have raw : (elementOf k acc subs).isElement = false := kind
        have skip : el.isElement = false := first.isElement.trans kind
        simp [kind, skip, raw, rest]
      | true =>
        have raw : (elementOf k acc subs).isElement = true := kind
        obtain rfl := eq_exactElement kind first
        have take : (exactElement strides acc subs).isElement = true := rfl
        simp only [List.filter_cons, kind, take, raw, if_true, List.map_cons, List.zipWith_cons_cons,
          rest]
        rfl

namespace Analysis

variable {accesses : List (Except Fault Access)}

private theorem object_of_accessesTo (mem : acc ∈ accessesTo base accesses) :
    acc.ptr.accessedObject = base := by
  induction accesses with
  | nil => simp [accessesTo] at mem
  | cons given accesses ih =>
    cases given with
    | error e => exact ih mem
    | ok other =>
      unfold accessesTo at mem
      split at mem
      · next own =>
        rcases List.mem_cons.mp mem with rfl | mem
        · exact own.1
        · exact ih mem
      · exact ih mem

/-- The accesses to one element of `base`. -/
def elementAccessesTo (base : Pointer) (accesses : List (Except Fault Access)) : List Access :=
  (accessesTo base accesses).filter fun acc => acc.kind.isElement

/-- The recorded accesses of an object make an array of constant nests. -/
private theorem rawShape_facts (declares : ArrayShape.Declares (told hint base) m n)
    (recorded : List.Forall₂ (Recorded w base (told hint base).length) accs mine)
    (taken : (mine.filter fun el => el.isElement).map Element.subscripts = rows)
    (constant : ConstantRows w n rows) :
    (rawShape hint mine base).elements = mine ∧
      (∀ el ∈ mine, el.isElement = true → el.isValid = true) ∧
      (rawShape hint mine base).rows = rows ∧ isScalar hint mine base = false := by
  have elements : (rawShape hint mine base).elements = mine :=
    List.filter_eq_self.mpr fun el mem => by
      obtain ⟨acc, -, here⟩ := exists_of_forall₂ recorded mem
      exact decide_eq_true here.object
  have valid : ∀ el ∈ mine, el.isElement = true → el.isValid = true := by
    intro el mem kind
    have row : el.subscripts ∈ rows := by
      rw [← taken]
      exact List.mem_map_of_mem (List.mem_filter.mpr ⟨mem, kind⟩)
    have length := constant.length _ row
    obtain ⟨acc, -, here⟩ := exists_of_forall₂ recorded mem
    obtain ⟨subs, -, rfl⟩ := here.entry
    rcases declares.length with none | all
    · simp [elementOf, none]
    · simp only [elementOf] at length ⊢
      simp [all, length]
  refine ⟨elements, valid, ?_, ?_⟩
  · rw [ArrayShape.rows, ArrayShape.validElements, elements, ← taken]
    congr 1
    refine List.filter_congr fun el mem => ?_
    cases kind : el.isElement with
    | false => rfl
    | true => simp [valid el mem kind]
  · obtain ⟨row, hrow⟩ := List.exists_mem_of_ne_nil _ constant.some
    have length := constant.length row hrow
    rw [← taken] at hrow
    obtain ⟨el, mem, rfl⟩ := List.mem_map.mp hrow
    have several := declares.bounds
    have subscripted : (rawShape hint mine base).subscripted = true := by
      change ((rawShape hint mine base).elements.any fun el => !el.subscripts.isEmpty) = true
      rw [elements]
      refine List.any_eq_true.mpr ⟨el, (List.mem_filter.mp mem).1, ?_⟩
      have some : el.subscripts ≠ [] := List.ne_nil_of_length_pos (by omega)
      simpa using some
    simp [isScalar, subscripted]

/-- An array whose accesses have constant nests as subscripts is recovered exactly, whatever else is
analyzed: the sizes are quotients of strides, and each subscript is divided by the stride of the
dimensions inside its own. No access to it stops the analysis. -/
theorem recovers_constantNests {source : HintSource} {width : Option Int}
    (hhint : source.hint = .ok hint) (hw : width.getD settings.indexWidth = w) (wide : 2 ≤ w)
    (index : 0 < settings.indexWidth) (declares : ArrayShape.Declares (told hint base) m n)
    (fit : ∀ acc ∈ accessesTo base accesses, acc.ptr.WellFormed)
    (taken : (elementAccessesTo base accesses).mapM (Access.subscripts w (told hint base).length) =
      .ok rows)
    (constant : ConstantRows w n rows) (positive : ∀ d, 1 ≤ d → d < m → 0 < outerGcd rows d) :
    ∃ shape : ArrayShape, shape.sized = true ∧ shape.dims.length = n ∧
      (∀ d, 1 ≤ d → d < m → (shape.dims[d]?).map Dimension.size =
        some (const (stride rows m d / stride rows m (d + 1) : Nat) w)) ∧
      (shape.elements.filter fun el => el.isElement) =
        List.zipWith (exactElement (stride rows m)) (elementAccessesTo base accesses) rows ∧
      (∀ a, (ofAccesses settings source width accesses).outcome = .ok a →
        a.registry.find? base = some shape) ∧
      ((∃ rest, (ofAccesses settings source width (accessesBeside base accesses)).outcome = .ok rest) →
        ∃ a, (ofAccesses settings source width accesses).outcome = .ok a) := by
  have pos : 0 < w := by omega
  obtain ⟨mine, own, recorded⟩ :=
    recorded_of_wellFormed hint pos fit fun acc mem => object_of_accessesTo mem
  have taken := rows_of_recorded recorded taken
  obtain ⟨elements, valid, same, array⟩ := rawShape_facts declares recorded taken constant
  have some : mine ≠ [] := by
    rintro rfl
    exact constant.some (by rw [← taken]; rfl)
  have positive : ∀ d, 1 ≤ d → 0 < stride rows m d := by
    intro d outer
    unfold stride
    split
    · exact positive d outer (by assumption)
    · exact Nat.one_pos
  have base' : base.WellFormed := by
    obtain ⟨el, mem⟩ := List.exists_mem_of_ne_nil mine some
    obtain ⟨acc, -, here⟩ := exists_of_forall₂ recorded mem
    rw [← here.object]
    exact here.wellFormed.ptr.accessedObject
  rw [← same] at constant positive
  obtain ⟨shape, run, done, sized, divided, wellFormed⟩ := recover_spec settings wide declares constant
    positive rfl (elements.symm ▸ valid) base' fun el mem => by
      rw [elements] at mem
      obtain ⟨acc, -, here⟩ := exists_of_forall₂ recorded mem
      exact here.wellFormed
  rw [same] at sized divided
  rw [elements] at divided
  refine ⟨shape, done, sized.length, fun d outer below => ?_, ?_, fun a all => ?_, ?_⟩
  · rw [sized.found d outer below]
    rfl
  · rw [exactElements_of_divided recorded divided, taken]
    rfl
  · exact find_of_ofAccesses hhint hw all own some array run
  · rintro ⟨rest, beside⟩
    have lines := Registry.arrayLines_total index wellFormed
    obtain ⟨a, all, -⟩ := ofAccesses_of_beside hhint hw beside own some array run lines
    exact ⟨a, all⟩

/-- A grid whose last dimension is declared. -/
def grid : Pointer := .object ⟨"A", 1⟩ none

/-- The distance that the first subscript moves, in steps of 12 and 36. -/
def gridDistance : Expr :=
  recurrence (recurrence (const (-24) 64) (const 36 64) outerLoop) (const 12 64) innerLoop

/-- Accesses to the grid: with all subscripts, with only the last one, and to a part of it. -/
def gridAccesses : List (Except Fault Access) :=
  [.ok ⟨0, .load, .index grid [gridDistance, const 5 64, const 3 64]⟩,
    .ok ⟨1, .store, .index grid [const 7 64]⟩,
    .ok ⟨2, .call, .index grid [const 60 64, const 0 64]⟩]

def gridRows : List (List Expr) :=
  [[gridDistance, const 5 64, const 3 64], [const 0 64, const 0 64, const 7 64]]

theorem grid_number {v : Int} (bounded : v.natAbs < nestBound 64) : ConstantNest 64 (const v 64) :=
  .const bounded

private theorem gridDistance_nest : ConstantNest 64 gridDistance :=
  .recurrence rfl (.recurrence rfl (grid_number (by decide)) (grid_number (by decide)))
    (grid_number (by decide))

private theorem gridRows_constant : ConstantRows 64 3 gridRows := by
  refine ⟨by simp [gridRows], by simp [gridRows], ?_⟩
  simp only [gridRows, List.forall_mem_cons, List.not_mem_nil, false_imp_iff, implies_true, and_true]
  exact ⟨⟨gridDistance_nest, grid_number (by decide), grid_number (by decide)⟩,
    grid_number (by decide), grid_number (by decide), grid_number (by decide)⟩

private theorem gridAccesses_wellFormed : ∀ acc ∈ accessesTo grid gridAccesses, acc.ptr.WellFormed := by
  decide +kernel

theorem recovers_constantNests_grid : ∃ a shape,
    (ofAccesses .default (.function fun _ => some [-1, -1, 9]) none gridAccesses).outcome = .ok a ∧
      a.registry.find? grid = some shape ∧ shape.sized = true ∧
      (shape.dims[1]?).map Dimension.size = some (const 12 64) ∧
      (shape.elements.filter fun el => el.isElement) =
        List.zipWith (exactElement (stride gridRows 2)) (elementAccessesTo grid gridAccesses)
          gridRows := by
  have hhint : (HintSource.function fun _ => some [-1, -1, 9]).hint = .ok fun _ => some [-1, -1, 9] := rfl
  have hw : (none : Option Int).getD Settings.default.indexWidth = 64 := rfl
  have declares : ArrayShape.Declares ([-1, -1] ++ [9]) 2 3 :=
    .inner (by decide) (by decide) (by decide)
  have taken : (elementAccessesTo grid gridAccesses).mapM (Access.subscripts 64 3) = .ok gridRows := by
    decide +kernel
  have positive : ∀ d, 1 ≤ d → d < 2 → 0 < outerGcd gridRows d := by
    intro d outer below
    obtain rfl : d = 1 := by omega
    decide +kernel
  obtain ⟨shape, done, -, sizes, elements, find, ends⟩ := recovers_constantNests hhint hw (by decide)
    (by decide) declares gridAccesses_wellFormed taken gridRows_constant positive
  obtain ⟨a, all⟩ := ends ⟨_, rfl⟩
  exact ⟨a, shape, all, find a all, done, sizes 1 (by decide) (by decide), elements⟩

end Analysis

end ShapeRecovery
