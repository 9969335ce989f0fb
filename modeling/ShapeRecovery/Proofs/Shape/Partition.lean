import ShapeRecovery.Proofs.Shape.ConstantShape

namespace ShapeRecovery

open ShapeRecovery.Expr Collection

section accesses

/-- The pointer ends in an indexing step. -/
def Pointer.isIndexed : Pointer → Bool
  | .index .. => true
  | _ => false

/-- The accesses that are no markers. -/
def counted (accs : List Access) : List Access :=
  accs.filter fun acc => !acc.kind.isIgnored

/-- The objects accessed, in the order of first sight. -/
def bases (accs : List Access) : List Pointer :=
  ((counted accs).map fun acc => acc.ptr.accessedObject).eraseDups

/-- The accesses to `base`. -/
def countedTo (base : Pointer) (accs : List Access) : List Access :=
  (counted accs).filter fun acc => acc.ptr.accessedObject = base

/-- The objects that are arrays: those that the hint tells sizes of, and those that are indexed. -/
def keptBases (hint : Hint) (accs : List Access) : List Pointer :=
  (bases accs).filter fun base =>
    !((hint base).getD []).isEmpty || (countedTo base accs).any fun acc => acc.ptr.isIndexed

end accesses

variable {hint : Hint} {w : Int} {accs : List Access} {els : List Element} {base : Pointer}

/-- `el` is what is recorded of the access `acc`. -/
structure RecordedAs (hint : Hint) (acc : Access) (el : Element) : Prop where
  ptr : el.ptr = acc.ptr
  isElement : el.isElement = acc.kind.isElement
  wellFormed : el.WellFormed
  /-- Without declared sizes the subscripts are those of the indexing steps. -/
  undeclared : told hint acc.ptr.accessedObject = [] →
    chainSubscripts (acc.ptr.outerSteps none) = .ok el.subscripts

theorem entries_eq_mapM (hint : Hint) (w : Int) (accs : List Access) :
    entries hint w (accs.map .ok) = (counted accs).mapM (entryOf hint w) := by
  induction accs with
  | nil => rfl
  | cons acc accs ih =>
    cases marker : acc.kind.isIgnored with
    | true => simp [entries, counted, marker, ih]
    | false => simp [entries, counted, marker, ih, List.mapM_cons]

/-- Every well-formed access is recorded. -/
theorem entries_total (hint : Hint) (pos : 0 < w) (fit : ∀ acc ∈ accs, acc.ptr.WellFormed) :
    ∃ els, entries hint w (accs.map .ok) = .ok els ∧
      List.Forall₂ (RecordedAs hint) (counted accs) els := by
  rw [entries_eq_mapM]
  refine mapM_related fun acc mem => ?_
  have here := fit acc (List.mem_filter.mp mem).1
  obtain ⟨subs, run, subsFit, entry⟩ := entryOf_eq hint pos here rfl
  refine ⟨_, entry, rfl, rfl, ⟨here, subsFit⟩, fun none => ?_⟩
  obtain ⟨chain, hchain, made⟩ := bind_eq_ok.mp run
  injection made with made
  rw [none, List.length_nil, if_pos rfl] at hchain
  simpa [elementOf, ← made, none, padded] using hchain

private theorem stepSubscripts_ne_nil {idx subs : List Expr} (run : stepSubscripts idx = .ok subs) :
    subs ≠ [] := by
  match idx with
  | [] => simp [stepSubscripts] at run
  | [e] =>
    injection run with run
    simp [← run]
  | e :: f :: es =>
    injection run with run
    rw [← run]
    split <;> simp

/-- A pointer has subscripts exactly where it ends in an indexing step. -/
private theorem chainSubscripts_isEmpty {p : Pointer} {subs : List Expr}
    (run : chainSubscripts (p.outerSteps none) = .ok subs) : subs.isEmpty = !p.isIndexed := by
  obtain ⟨parts, hparts, made⟩ := bind_eq_ok.mp run
  injection made with made
  subst made
  cases p with
  | index base idx =>
    have last : idx ∈ (Pointer.index base idx).outerSteps none := by simp [Pointer.outerSteps]
    obtain ⟨part, mem, hpart⟩ := exists_of_mapM hparts last
    have some := stepSubscripts_ne_nil hpart
    have nonempty : parts.flatten ≠ [] := fun none => some (List.flatten_eq_nil_iff.mp none part mem)
    simpa [Pointer.isIndexed] using nonempty
  | _ =>
    have none : parts = [] := by
      simpa [Pointer.outerSteps] using hparts.symm
    simp [none, Pointer.isIndexed]

section recorded

variable (recorded : List.Forall₂ (RecordedAs hint) (counted accs) els)

include recorded

private theorem ptrs_of_recorded : els.map Element.ptr = (counted accs).map Access.ptr :=
  map_eq_of_forall₂ (recorded.imp fun _ _ h => h.ptr)

theorem objects_of_recorded : objects els = bases accs := by
  have ptrs := congrArg (List.map Pointer.accessedObject) (ptrs_of_recorded recorded)
  simp only [List.map_map] at ptrs
  exact congrArg List.eraseDups ptrs

/-- The entries of one object are recorded of the accesses to it. -/
theorem recorded_filter (base : Pointer) :
    List.Forall₂ (RecordedAs hint) (countedTo base accs)
      (els.filter fun el => objectOf el = base) := by
  unfold countedTo
  generalize counted accs = given at recorded ⊢
  induction recorded with
  | nil => exact .nil
  | @cons acc el accs' els' here _ ih =>
    have object : objectOf el = acc.ptr.accessedObject := by rw [objectOf, here.ptr]
    by_cases same : acc.ptr.accessedObject = base
    · simp only [List.filter_cons, object, same, decide_true, if_true]
      exact .cons here ih
    · simpa [object, same] using ih

/-- Where nothing is told of an object, it is a scalar if no access to it is indexed. -/
private theorem isScalar_of_recorded (base : Pointer) :
    isScalar hint els base =
      (((hint base).getD []).isEmpty && !(countedTo base accs).any fun acc => acc.ptr.isIndexed) := by
  have own := recorded_filter recorded base
  have dims : (rawShape hint els base).dims.isEmpty = ((hint base).getD []).isEmpty := by
    simp only [rawShape, told]
    cases (hint base).getD [] <;> rfl
  rw [isScalar, dims]
  cases none : ((hint base).getD []).isEmpty with
  | false => rfl
  | true =>
    have same : ((els.filter fun el => objectOf el = base).any fun el => !el.subscripts.isEmpty) =
        (countedTo base accs).any fun acc => acc.ptr.isIndexed := by
      have objects : ∀ acc ∈ countedTo base accs, acc.ptr.accessedObject = base :=
        fun acc mem => of_decide_eq_true (List.mem_filter.mp mem).2
      generalize countedTo base accs = given at own objects ⊢
      generalize (els.filter fun el => objectOf el = base) = mine at own ⊢
      induction own with
      | nil => rfl
      | @cons acc el accs' els' here _ ih =>
        obtain ⟨object, rest⟩ := List.forall_mem_cons.mp objects
        have undeclared : told hint acc.ptr.accessedObject = [] := by
          rw [object]
          exact List.isEmpty_iff.mp none
        rw [List.any_cons, List.any_cons, ih rest,
          chainSubscripts_isEmpty (here.undeclared undeclared), Bool.not_not]
    rw [← same]
    rfl

theorem arrayObjects_of_recorded : arrayObjects hint els = keptBases hint accs := by
  rw [arrayObjects, keptBases, objects_of_recorded recorded]
  refine List.filter_congr fun base _ => ?_
  rw [isScalar_of_recorded recorded]
  cases ((hint base).getD []).isEmpty <;> simp

theorem rawShape_of_recorded (base : Pointer) :
    (rawShape hint els base).elements.map Element.ptr = (countedTo base accs).map Access.ptr :=
  map_eq_of_forall₂ ((recorded_filter recorded base).imp fun _ _ h => h.ptr)

end recorded

namespace Registry

theorem findIdx?_bind_getElem? {α : Type} (q : α → Bool) (xs : List α) :
    ((xs.findIdx? q).bind fun k => xs[k]?) = xs.find? q := by
  induction xs with
  | nil => rfl
  | cons x xs ih =>
    rw [List.findIdx?_cons, List.find?_cons]
    cases q x with
    | true => rfl
    | false => simpa [Option.bind_map, Function.comp_def] using ih

/-- The first of the numbered accesses through `p`. -/
private theorem find_numbered (base p : Pointer) (els : List Element) (n : Nat) :
    ((els.zipIdx n).map fun (el, k) => (el.ptr, (⟨base, k⟩ : Place))).find?
        (fun entry => entry.1 = p) =
      (els.findIdx? fun el => el.ptr = p).map fun k => (p, ⟨base, k + n⟩) := by
  induction els generalizing n with
  | nil => rfl
  | cons el els ih =>
    by_cases here : el.ptr = p
    · simp [List.zipIdx_cons, List.findIdx?_cons, here]
    · simp [List.zipIdx_cons, List.findIdx?_cons, here, ih, Function.comp_def, Nat.add_assoc,
        Nat.add_comm 1]

/-- An array of accesses to its own object knows no access to another. -/
theorem findIdx?_other {shape : ArrayShape} {p : Pointer}
    (own : ∀ el ∈ shape.elements, el.ptr.accessedObject = shape.base)
    (other : shape.base ≠ p.accessedObject) : (shape.elements.findIdx? fun el => el.ptr = p) = none := by
  refine List.findIdx?_eq_none_iff.mpr fun el mem => decide_eq_false fun same => other ?_
  rw [← own el mem, same]

/-- Where arrays hold accesses to their own objects, an access is found in the array of its object. -/
private theorem findSome_eq {arrays : List ArrayShape} {α : Type} {f : ArrayShape → Option α} {base : Pointer}
    (distinct : (arrays.map ArrayShape.base).Nodup)
    (elsewhere : ∀ shape ∈ arrays, shape.base ≠ base → f shape = none) :
    arrays.findSome? f = (arrays.find? fun shape => shape.base = base).bind f := by
  induction arrays with
  | nil => rfl
  | cons shape rest ih =>
    obtain ⟨fresh, distinct⟩ := List.nodup_cons.mp distinct
    obtain ⟨first, others⟩ := List.forall_mem_cons.mp elsewhere
    by_cases here : shape.base = base
    · have none : rest.findSome? f = none := by
        refine List.findSome?_eq_none_iff.mpr fun s mem => others s mem fun same => fresh ?_
        rw [here, ← same]
        exact List.mem_map_of_mem mem
      simp only [List.findSome?_cons, none, List.find?_cons, here, decide_true, Option.bind_some]
      cases f shape <;> rfl
    · simp [first here, here, ih distinct others]

theorem findElement?_eq {r : Registry} (distinct : (r.arrays.map ArrayShape.base).Nodup)
    (own : ∀ shape ∈ r.arrays, ∀ el ∈ shape.elements, el.ptr.accessedObject = shape.base)
    (p : Pointer) :
    (fillPlaces r).findElement? p = (r.find? p.accessedObject).bind fun shape =>
      (shape.elements.find? fun el => el.ptr = p).map fun el => (shape, el) := by
  have place : (fillPlaces r).findPlace? p = (r.find? p.accessedObject).bind fun shape =>
      (shape.elements.findIdx? fun el => el.ptr = p).map fun k => ⟨shape.base, k⟩ := by
    have numbered (shape : ArrayShape) := find_numbered shape.base p shape.elements 0
    simp only [findPlace?, fillPlaces, List.find?_flatMap, placesOf, numbered]
    rw [findSome_eq distinct fun shape mem other => by rw [findIdx?_other (own shape mem) other]; rfl]
    change Option.map Prod.snd (Option.bind (r.find? p.accessedObject) _) = _
    cases r.find? p.accessedObject with
    | none => rfl
    | some shape => simp [Function.comp_def]
  unfold findElement?
  rw [place]
  cases found : r.find? p.accessedObject with
  | none => rfl
  | some shape =>
    have search : (r.arrays.find? fun shape => shape.base = p.accessedObject) = some shape := found
    have base : shape.base = p.accessedObject := by simpa using List.find?_some search
    have again : (fillPlaces r).find? p.accessedObject = some shape := found
    have first := findIdx?_bind_getElem? (fun el => decide (el.ptr = p)) shape.elements
    simp only [Option.bind_some, ← first]
    cases shape.elements.findIdx? fun el => el.ptr = p with
    | none => rfl
    | some k =>
      simp only [Option.map_some, Option.bind_eq_bind, Option.bind_some, base, again]
      cases shape.elements[k]? <;> rfl

end Registry

namespace Analysis

/-- The arrays of `a` are those of the kept objects, hold the accesses to their objects in order,
and are found by the pointers of these accesses; every object was asked about once. -/
structure Partitions (hint : Hint) (accs : List Access) (a : Analysis) : Prop where
  arrays : a.registry.arrays.map ArrayShape.base = keptBases hint accs
  elements : ∀ shape ∈ a.registry.arrays,
    shape.elements.map Element.ptr = (countedTo shape.base accs).map Access.ptr
  asked : a.asked = bases accs
  found : ∀ acc ∈ counted accs, acc.ptr.accessedObject ∈ keptBases hint accs →
    ∃ shape el, a.registry.find? acc.ptr.accessedObject = some shape ∧
      (shape.elements.find? fun el => el.ptr = acc.ptr) = some el ∧
      a.registry.findElement? acc.ptr = some (shape, el)
  missed : ∀ p, (∀ acc ∈ counted accs, acc.ptr = p → p.accessedObject ∉ keptBases hint accs) →
    a.registry.findElement? p = none

variable {settings : Settings} {source : HintSource} {width : Option Int} {a : Analysis}

private theorem nodup_objects (els : List Element) : (objects els).Nodup := by
  induction els using List.reverseRecOn with
  | nil => simp [objects]
  | append_singleton els el ih =>
    rw [objects_snoc, objectsAnd]
    split
    · exact ih
    · next fresh => exact ih.append (List.nodup_singleton _) (by simpa using fresh)

/-- What an analysis that ends has found, array by array. -/
theorem ofAccesses_run (hhint : source.hint = .ok hint) (hw : width.getD settings.indexWidth = w)
    (found : entries hint w (accs.map .ok) = .ok els)
    (run : (ofAccesses settings source width (accs.map .ok)).outcome = .ok a) :
    ∃ arrays, List.Forall₂ (fun base shape => recovered settings w hint els base = .ok shape)
        (arrayObjects hint els) arrays ∧ listed settings arrays = .ok () ∧
      a = ⟨Registry.fillPlaces ⟨arrays, []⟩, objects els⟩ := by
  simp only [ofAccesses_eq, hhint, hw, found, ok_bind, bind_eq_ok] at run
  obtain ⟨arrays, harrays, ⟨⟩, hlist, made⟩ := run
  injection made with made
  exact ⟨arrays, mapM_eq_ok_iff.mp harrays, hlist, made.symm⟩

/-- An analysis ends exactly if the work on each array does, and the arrays can be listed where that
is wanted. -/
theorem ends_iff (hhint : source.hint = .ok hint) (hw : width.getD settings.indexWidth = w)
    (found : entries hint w (accs.map .ok) = .ok els) :
    (∃ a, (ofAccesses settings source width (accs.map .ok)).outcome = .ok a) ↔
      ∀ base ∈ arrayObjects hint els, ∃ shape, recovered settings w hint els base = .ok shape ∧
        (settings.trace = true → ∃ ls, Registry.arrayLines settings.indexWidth shape = .ok ls) := by
  constructor
  · rintro ⟨a, run⟩ base mem
    obtain ⟨arrays, each, lines, -⟩ := ofAccesses_run hhint hw found run
    obtain ⟨shape, hshape, made⟩ := exists_of_forall₂ each.flip mem
    exact ⟨shape, made, fun trace => listed_ok_iff.mp lines trace shape hshape⟩
  · intro each
    obtain ⟨arrays, run, -, lines⟩ := mapM_all each
    have listing := listed_ok_iff.mpr fun trace shape mem => lines shape mem trace
    exact ⟨_, by simp only [ofAccesses_eq, hhint, hw, found, run, listing, ok_bind]; rfl⟩

section lookups

variable {arrays : List ArrayShape} {shape : ArrayShape} {acc : Access} {p : Pointer}
  (elements : ∀ shape ∈ arrays,
    shape.elements.map Element.ptr = (countedTo shape.base accs).map Access.ptr)
include elements

/-- An element of an array is an access to its object. -/
theorem counted_of_element (mem : shape ∈ arrays) (among : p ∈ shape.elements.map Element.ptr) :
    ∃ acc ∈ counted accs, acc.ptr = p ∧ p.accessedObject = shape.base := by
  rw [elements shape mem] at among
  obtain ⟨acc, hacc, rfl⟩ := List.mem_map.mp among
  obtain ⟨counts, own⟩ := List.mem_filter.mp hacc
  exact ⟨acc, counts, rfl, of_decide_eq_true own⟩

theorem findElement_lookup (distinct : (arrays.map ArrayShape.base).Nodup) (p : Pointer) :
    (Registry.fillPlaces ⟨arrays, []⟩).findElement? p =
      ((Registry.mk arrays []).find? p.accessedObject).bind fun shape =>
        (shape.elements.find? fun el => el.ptr = p).map fun el => (shape, el) := by
  refine Registry.findElement?_eq distinct (fun shape mem el hel => ?_) p
  obtain ⟨-, -, -, own⟩ := counted_of_element elements mem (List.mem_map_of_mem hel)
  exact own

theorem findElement_found (distinct : (arrays.map ArrayShape.base).Nodup) (mem : acc ∈ counted accs)
    (here : (Registry.mk arrays []).find? acc.ptr.accessedObject = some shape) :
    ∃ el, (shape.elements.find? fun el => el.ptr = acc.ptr) = some el ∧
      (Registry.fillPlaces ⟨arrays, []⟩).findElement? acc.ptr = some (shape, el) := by
  have base : shape.base = acc.ptr.accessedObject := by simpa using List.find?_some here
  have among : acc.ptr ∈ shape.elements.map Element.ptr := by
    rw [elements shape (List.mem_of_find?_eq_some here), base]
    exact List.mem_map_of_mem (List.mem_filter.mpr ⟨mem, decide_eq_true rfl⟩)
  obtain ⟨el, hel, same⟩ := List.mem_map.mp among
  obtain ⟨first, hfirst⟩ := Option.isSome_iff_exists.mp
    (List.find?_isSome (p := fun el => el.ptr = acc.ptr) |>.mpr ⟨el, hel, decide_eq_true same⟩)
  refine ⟨first, hfirst, ?_⟩
  rw [findElement_lookup elements distinct, here, Option.bind_some, hfirst]
  rfl

theorem findElement_missed (distinct : (arrays.map ArrayShape.base).Nodup)
    (other : ∀ acc ∈ counted accs, acc.ptr = p → p.accessedObject ∉ arrays.map ArrayShape.base) :
    (Registry.fillPlaces ⟨arrays, []⟩).findElement? p = none := by
  rw [findElement_lookup elements distinct]
  cases here : (Registry.mk arrays []).find? p.accessedObject with
  | none => rfl
  | some shape =>
    have mem : shape ∈ arrays := List.mem_of_find?_eq_some here
    have none : (shape.elements.find? fun el => el.ptr = p) = Option.none := by
      refine List.find?_eq_none.mpr fun el hel same => ?_
      obtain ⟨acc, counts, ptr, own⟩ := counted_of_element elements mem (List.mem_map_of_mem hel)
      rw [of_decide_eq_true same] at ptr own
      exact other acc counts ptr (own ▸ List.mem_map_of_mem mem)
    simp [none]

end lookups

/-- Of well-formed accesses, the arrays that are recovered are those of the kept objects. -/
theorem partitions_of_run (hhint : source.hint = .ok hint)
    (pos : 0 < width.getD settings.indexWidth) (fit : ∀ acc ∈ accs, acc.ptr.WellFormed)
    (run : (ofAccesses settings source width (accs.map .ok)).outcome = .ok a) :
    Partitions hint accs a := by
  obtain ⟨els, hels, recorded⟩ := entries_total hint pos fit
  obtain ⟨arrays, each, -, rfl⟩ := ofAccesses_run hhint rfl hels run
  rw [arrayObjects_of_recorded recorded] at each
  have objects : arrays.map ArrayShape.base = keptBases hint accs := by
    have same := map_eq_of_forall₂ (each.imp fun base shape h => recovered_base h)
    rwa [List.map_id'] at same
  have elements : ∀ shape ∈ arrays,
      shape.elements.map Element.ptr = (countedTo shape.base accs).map Access.ptr := by
    intro shape mem
    obtain ⟨base, -, made⟩ := exists_of_forall₂ each mem
    obtain ⟨same, revised⟩ := recover_run made
    rw [map_eq_of_forall₂ (revised.imp fun _ _ h => h.ptr), rawShape_of_recorded recorded, same]
    rfl
  have distinct : (arrays.map ArrayShape.base).Nodup := by
    rw [objects, keptBases, ← objects_of_recorded recorded]
    exact (nodup_objects els).filter _
  exact {
    arrays := objects
    elements := elements
    asked := objects_of_recorded recorded
    found := by
      intro acc mem kept
      obtain ⟨shape, hshape, made⟩ := exists_of_forall₂ each.flip kept
      have here : (Registry.mk arrays []).find? acc.ptr.accessedObject = some shape :=
        find_of_mapM (mapM_eq_ok_iff.mpr each) (fun _ _ => recovered_base) kept made
      obtain ⟨el, first, found⟩ := findElement_found elements distinct mem here
      exact ⟨shape, el, here, first, found⟩
    missed := fun p other => findElement_missed elements distinct (objects ▸ other) }

/-- Well-formed accesses are collected: each kept object has one array, with the accesses to it, and
is asked about once. The analysis ends exactly if the work on every collected array does, and then it
keeps the partition and finds the accesses. -/
theorem collects_partition (hhint : source.hint = .ok hint)
    (pos : 0 < width.getD settings.indexWidth) (fit : ∀ acc ∈ accs, acc.ptr.WellFormed) :
    ∃ c, (Collection.ofAccesses hint (width.getD settings.indexWidth) (accs.map .ok)).outcome =
        .ok c ∧
      c.registry.arrays.map ArrayShape.base = keptBases hint accs ∧
      (∀ shape ∈ c.registry.arrays,
        shape.elements.map Element.ptr = (countedTo shape.base accs).map Access.ptr) ∧
      c.asked = bases accs ∧
      ((∃ a, (ofAccesses settings source width (accs.map .ok)).outcome = .ok a) ↔
        ∀ shape ∈ c.registry.arrays, ∃ done,
          (recover settings (width.getD settings.indexWidth) (told hint shape.base) shape).outcome =
            .ok done ∧
          (settings.trace = true →
            ∃ ls, Registry.arrayLines settings.indexWidth done = .ok ls)) ∧
      ∀ a, (ofAccesses settings source width (accs.map .ok)).outcome = .ok a →
        Partitions hint accs a := by
  obtain ⟨els, hels, recorded⟩ := entries_total hint pos fit
  have arrays : (result hint els).registry.arrays =
      (keptBases hint accs).map (rawShape hint els) := by
    rw [← arrayObjects_of_recorded recorded]
    rfl
  refine ⟨result hint els, by rw [Collection.ofAccesses_eq, hels]; rfl, ?_, ?_,
    objects_of_recorded recorded, ?_, fun a run => partitions_of_run hhint pos fit run⟩
  · rw [arrays, List.map_map]
    exact List.map_id' _
  · rw [arrays]
    exact List.forall_mem_map.mpr fun base _ => rawShape_of_recorded recorded base
  · rw [ends_iff hhint rfl hels, arrays, List.forall_mem_map, arrayObjects_of_recorded recorded]
    rfl

def table : Pointer := .object ⟨"A", 1⟩ none

def row : Pointer := .object ⟨"B", 2⟩ none

def offset : Expr := unknown ⟨"k", 3⟩ 64

/-- Accesses to two arrays among those to a scalar, and a marker. -/
def mixed : List Access :=
  [⟨0, .load, .index table [offset, offset]⟩, ⟨1, .load, .object ⟨"s", 4⟩ none⟩,
    ⟨2, .store, .index row [offset]⟩, ⟨3, .marker, .object ⟨"t", 5⟩ none⟩,
    ⟨4, .call, table⟩]

theorem mixed_wellFormed : ∀ acc ∈ mixed, acc.ptr.WellFormed := by decide +kernel

theorem collects_partition_mixed : (∀ acc ∈ mixed, acc.ptr.WellFormed) ∧
    keptBases Pointer.declaredSizes mixed = [table, row] ∧
    ∃ a, (ofAccesses ⟨64, false⟩ .declarations none (mixed.map .ok)).outcome = .ok a ∧
      Partitions Pointer.declaredSizes mixed a := by
  have source : HintSource.declarations.hint = .ok Pointer.declaredSizes := rfl
  have pos : (0 : Int) < (none : Option Int).getD (Settings.mk 64 false).indexWidth := by decide
  obtain ⟨c, -, -, -, -, -, partitions⟩ := collects_partition source pos mixed_wellFormed
  have ends : (ofAccesses ⟨64, false⟩ .declarations none (mixed.map .ok)).outcome.isOk = true := by
    decide +kernel
  obtain ⟨a, run⟩ := exists_of_isOk ends
  exact ⟨mixed_wellFormed, by decide +kernel, a, run, partitions a run⟩

/-- A recurrence whose step is a product with the factor zero, times what is not searched. -/
def vanishing : Expr :=
  product [recurrence (const 0 64)
      (product [const 1 64, product [unknown ⟨"y", 4⟩ 64, const 0 64]]) ⟨⟨"i", 5⟩, 0⟩,
    quotient (unknown ⟨"x", 6⟩ 64) (const 3 64)]

/-- An access whose outer subscript is searched for divisors of the size. -/
def refusedLoad : Access := ⟨0, .load, .index table [vanishing, offset]⟩

theorem refusedLoad_wellFormed : refusedLoad.ptr.WellFormed := by decide +kernel

/-- The search for a divisor meets the factor zero and is refused, so that there are no arrays. -/
theorem partition_refused : refusedLoad.ptr.WellFormed ∧
    keptBases Pointer.declaredSizes [refusedLoad] = [table] ∧
    ¬ ∃ a, (ofAccesses ⟨64, false⟩ .declarations none [.ok refusedLoad]).outcome = .ok a ∧
      Partitions Pointer.declaredSizes [refusedLoad] a := by
  have refused : (ofAccesses ⟨64, false⟩ .declarations none [.ok refusedLoad]).outcome =
      .error .notNonzeroConstant := by decide +kernel
  refine ⟨refusedLoad_wellFormed, by decide +kernel, ?_⟩
  rintro ⟨a, run, -⟩
  rw [refused] at run
  cases run

end Analysis

end ShapeRecovery
