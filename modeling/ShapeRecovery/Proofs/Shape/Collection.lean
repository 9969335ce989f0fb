import ShapeRecovery.Proofs.Memory.Pointer
import ShapeRecovery.Shape.Collection

namespace ShapeRecovery.Collection

/-- The sizes that the hint tells of an object, none if it is silent. -/
def told (hint : Hint) (base : Pointer) : List Int :=
  (hint base).getD []

/-- The entry that an access gets in the array of its object. -/
def entryOf (hint : Hint) (width : Int) (acc : Access) : Except Fault Element := do
  let _ ← acc.ptr.text
  let base := acc.ptr.accessedObject
  let _ ← base.text
  let n := (told hint base).length
  let subs ← chainSubscripts (acc.ptr.outerSteps (if n = 0 then none else some n))
  let padding ← (paddingFor width n acc.kind subs).outcome
  let el := elementOf n acc (padding ++ subs)
  (describe n el).outcome
  return el

/-- The object that an entry belongs to. -/
def objectOf (el : Element) : Pointer :=
  el.ptr.accessedObject

/-- The objects of some entries, in the order of first sight. -/
def objects (els : List Element) : List Pointer :=
  (els.map objectOf).eraseDups

/-- The objects of some entries and another one, last if it is new. -/
def objectsAnd (els : List Element) (base : Pointer) : List Pointer :=
  if base ∈ objects els then objects els else objects els ++ [base]

/-- The array of one object before sizes are inferred. -/
def rawShape (hint : Hint) (els : List Element) (base : Pointer) : ArrayShape where
  base := base
  dims := List.replicate (told hint base).length .unknown
  elements := els.filter fun el => objectOf el = base
  sized := false
  subscripted := (els.filter fun el => objectOf el = base).any fun el => !el.subscripts.isEmpty

/-- What is known when these entries were recorded. -/
def collected (hint : Hint) (els : List Element) : Collection where
  registry := ⟨(objects els).map (rawShape hint els), []⟩
  hints := (objects els).map fun base => (base, told hint base)
  asked := objects els

variable {hint : Hint} {width : Int} {els : List Element} {base : Pointer}

theorem entryOf_ptr {acc : Access} {el : Element} (h : entryOf hint width acc = .ok el) :
    el.ptr = acc.ptr := by
  simp only [entryOf, bind_eq_ok] at h
  obtain ⟨-, -, -, -, subs, -, padding, -, -, -, made⟩ := h
  injection made with made
  rw [← made]
  rfl

theorem mem_objects : base ∈ objects els ↔ ∃ el ∈ els, objectOf el = base := by
  simp [objects, List.mem_eraseDups]

theorem objects_snoc (els : List Element) (el : Element) :
    objects (els ++ [el]) = objectsAnd els (objectOf el) := by
  have split : objects (els ++ [el]) =
      objects els ++ ([objectOf el].removeAll (els.map objectOf)).eraseDups := by
    rw [objects, List.map_append, List.eraseDups_append]
    rfl
  rw [split, objectsAnd]
  by_cases known : objectOf el ∈ objects els
  · rw [if_pos known]
    simp [List.removeAll, mem_objects.mp known]
  · rw [if_neg known]
    have apart : ¬ ∃ e ∈ els, objectOf e = objectOf el := fun h => known (mem_objects.mpr h)
    simp [List.removeAll, apart, List.eraseDups_cons]

/-- Looking for a key among entries made from keys finds the entry of this key. -/
theorem find_map {α : Type} (key : α → Pointer) (make : Pointer → α) (own : ∀ b, key (make b) = b)
    (bs : List Pointer) (base : Pointer) :
    (bs.map make).find? (fun a => key a = base) = if base ∈ bs then some (make base) else none := by
  induction bs with
  | nil => rfl
  | cons b bs ih =>
    by_cases same : b = base
    · simp [same, own]
    · simp [same, own, ih, Ne.symm same]

theorem find_collected (hint : Hint) (els : List Element) (base : Pointer) :
    (collected hint els).registry.find? base =
      if base ∈ objects els then some (rawShape hint els base) else none :=
  find_map ArrayShape.base (rawShape hint els) (fun _ => rfl) _ base

private theorem hintOf_collected (hint : Hint) (els : List Element) (base : Pointer) :
    (collected hint els).hintOf? base = if base ∈ objects els then some (told hint base) else none := by
  have found := find_map Prod.fst (fun b => (b, told hint b)) (fun _ => rfl) (objects els) base
  simp only [hintOf?, collected, found]
  split <;> rfl

/-- An entry changes the array of its object only. -/
private theorem rawShape_snoc_other {el : Element} (other : objectOf el ≠ base) :
    rawShape hint (els ++ [el]) base = rawShape hint els base := by
  simp [rawShape, other]

private theorem rawShape_snoc_own (hint : Hint) (els : List Element) (el : Element) :
    rawShape hint (els ++ [el]) (objectOf el) =
      { (rawShape hint els (objectOf el)).addElement el with
        subscripted := (rawShape hint els (objectOf el)).subscripted || !el.subscripts.isEmpty } := by
  simp [rawShape, ArrayShape.addElement]

private theorem rawShape_unseen (new : base ∉ objects els) :
    rawShape hint els base = (ArrayShape.ofBase base).withDimensions (told hint base).length := by
  have none : (els.filter fun el => objectOf el = base) = [] := by
    refine List.filter_eq_nil_iff.mpr fun el mem => ?_
    simpa using fun same => new (mem_objects.mpr ⟨el, mem, same⟩)
  simp [rawShape, none, ArrayShape.ofBase, ArrayShape.withDimensions]

/-- One more entry replaces the array of its object, which comes last if the object is new. -/
private theorem registry_snoc (hint : Hint) (els : List Element) (el : Element) :
    (collected hint (els ++ [el])).registry =
      ((collected hint els).registry.ensure (objectOf el)).update (objectOf el) fun _ =>
        rawShape hint (els ++ [el]) (objectOf el) := by
  have replace (b : Pointer) : rawShape hint (els ++ [el]) b =
      if (rawShape hint els b).base = objectOf el then rawShape hint (els ++ [el]) (objectOf el)
      else rawShape hint els b := by
    by_cases same : b = objectOf el
    · simp [rawShape, same]
    · rw [rawShape_snoc_other (Ne.symm same)]
      exact (if_neg same).symm
  have others : (objects els).map (rawShape hint (els ++ [el])) =
      ((objects els).map (rawShape hint els)).map fun shape =>
        if shape.base = objectOf el then rawShape hint (els ++ [el]) (objectOf el) else shape := by
    rw [List.map_map]
    exact List.map_congr_left fun b _ => replace b
  unfold Registry.ensure
  rw [find_collected]
  by_cases known : objectOf el ∈ objects els
  · simp only [collected, objects_snoc, objectsAnd, known, if_true, others, Registry.update]
  · simp only [collected, objects_snoc, objectsAnd, known, if_false, List.map_append, others,
      Registry.update]
    simp [ArrayShape.ofBase]

private theorem collected_snoc (hint : Hint) (els : List Element) (el : Element) :
    collected hint (els ++ [el]) = {
      registry := ((collected hint els).registry.ensure (objectOf el)).update (objectOf el) fun _ =>
        { (rawShape hint els (objectOf el)).addElement el with
          subscripted := (rawShape hint els (objectOf el)).subscripted || !el.subscripts.isEmpty }
      hints := (objectsAnd els (objectOf el)).map fun b => (b, told hint b)
      asked := objectsAnd els (objectOf el) } := by
  rw [← rawShape_snoc_own, ← registry_snoc, ← objects_snoc]
  rfl

private theorem askHint_collected {name : String} (named : base.label = .ok name) :
    (askHint hint base (collected hint els)).outcome = .ok (told hint base, {
      registry := (collected hint els).registry
      hints := (objectsAnd els base).map fun b => (b, told hint b)
      asked := objectsAnd els base }) := by
  unfold askHint objectsAnd
  rw [hintOf_collected]
  by_cases known : base ∈ objects els
  · simp [known, collected]
  · simp only [known, if_false, Traced.outcome_bind, Traced.outcome_lift, named, ok_bind,
      Traced.outcome_say, Traced.outcome_pure]
    simp [collected, told]

/-- The array that an access is added to, a new one if its object is new. -/
private theorem shape_collected (hint : Hint) (els : List Element) (base : Pointer) :
    ((collected hint els).registry.find? base).getD
      ((ArrayShape.ofBase base).withDimensions (told hint base).length) =
        rawShape hint els base := by
  rw [find_collected]
  by_cases known : base ∈ objects els
  · simp [known]
  · simp [known, rawShape_unseen known]

/-- Recording an access adds its entry, and is refused where the access has none. -/
private theorem record_collected (hint : Hint) (width : Int) (els : List Element) (acc : Access) :
    (record hint width (collected hint els) acc).outcome =
      (entryOf hint width acc).map fun el => collected hint (els ++ [el]) := by
  simp only [record, entryOf, Traced.outcome_bind, Traced.outcome_lift, Traced.outcome_say, ok_bind]
  cases acc.ptr.text with
  | error e => rfl
  | ok p =>
    cases hb : acc.ptr.accessedObject.text with
    | error e => rfl
    | ok b =>
      obtain ⟨name, named⟩ := Pointer.label_of_text hb
      have dims : (rawShape hint els acc.ptr.accessedObject).dims.length =
          (told hint acc.ptr.accessedObject).length := by simp [rawShape]
      simp only [ok_bind, askHint_collected named, shape_collected, dims]
      cases chainSubscripts (acc.ptr.outerSteps _) with
      | error e => rfl
      | ok subs =>
        simp only [ok_bind, ne_eq, not_true_eq_false, if_false, Traced.outcome_bind]
        cases (paddingFor width _ acc.kind subs).outcome with
        | error e => rfl
        | ok padding =>
          simp only [ok_bind]
          cases (describe _ _).outcome with
          | error e => rfl
          | ok u =>
            simp only [ok_bind, pure_eq_ok, Traced.outcome_pure, Except.map, collected_snoc]
            rfl

/-- The entries of the accesses that are given, markers left out. -/
def entries (hint : Hint) (width : Int) : List (Except Fault Access) → Except Fault (List Element)
  | [] => .ok []
  | given :: rest => do
    let acc ← given
    if acc.kind.isIgnored then entries hint width rest
    else
      let el ← entryOf hint width acc
      let others ← entries hint width rest
      return el :: others

/-- After any number of accesses the collection is that of their entries. -/
theorem recordAll_collected (hint : Hint) (width : Int) (els : List Element)
    (accesses : List (Except Fault Access)) :
    (accesses.foldlM (recordGiven hint width) (collected hint els)).outcome =
      (entries hint width accesses).map fun more => collected hint (els ++ more) := by
  induction accesses generalizing els with
  | nil => simp [entries, Except.map]
  | cons given rest ih =>
    simp only [List.foldlM_cons, entries, recordGiven, Traced.outcome_bind, Traced.outcome_lift]
    cases given with
    | error e => rfl
    | ok acc =>
      by_cases marker : acc.kind.isIgnored = true
      · simp [marker, ih]
      · simp only [ok_bind, marker, Bool.false_eq_true, if_false, record_collected]
        cases entryOf hint width acc with
        | error e => rfl
        | ok el =>
          simp only [Except.map, ok_bind, ih]
          cases entries hint width rest with
          | error e => rfl
          | ok more => simp

/-- Nothing is told of the dimensions of the object, and no access to it has a subscript. -/
def isScalar (hint : Hint) (els : List Element) (base : Pointer) : Bool :=
  (rawShape hint els base).dims.isEmpty && !(rawShape hint els base).subscripted

/-- The objects that are arrays. -/
def arrayObjects (hint : Hint) (els : List Element) : List Pointer :=
  (objects els).filter fun base => !isScalar hint els base

/-- A collection reduced to the objects that satisfy `keep`. -/
def restrict (keep : Pointer → Bool) (c : Collection) : Collection :=
  { c with
    hints := c.hints.filter fun entry => keep entry.1
    registry := { c.registry with arrays := c.registry.arrays.filter fun shape => keep shape.base } }

private theorem restrict_restrict (keep more : Pointer → Bool) (c : Collection) :
    restrict more (restrict keep c) = restrict (fun b => keep b && more b) c := by
  simp [restrict, List.filter_filter, Bool.and_comm]

private theorem dropIfScalar_rawShape (hint : Hint) (els : List Element) (c : Collection) {base : Pointer}
    {name : String} (named : base.label = .ok name) :
    (dropIfScalar c (rawShape hint els base)).outcome =
      .ok (restrict (fun b => !(b == base && isScalar hint els b)) c) := by
  have own : (rawShape hint els base).base = base := rfl
  unfold dropIfScalar
  cases scalar : isScalar hint els base with
  | true =>
    have drop (b : Pointer) : (!(b == base && isScalar hint els b)) = decide (b ≠ base) := by
      by_cases same : b = base
      · simp [same, scalar]
      · simp [same]
    unfold isScalar at scalar
    simp only [scalar, if_true, own, named, Traced.outcome_bind, Traced.outcome_lift, ok_bind,
      Traced.outcome_say, Traced.outcome_pure, restrict, drop, Registry.remove]
  | false =>
    have keep (b : Pointer) : (!(b == base && isScalar hint els b)) = true := by
      by_cases same : b = base
      · simp [same, scalar]
      · simp [same]
    unfold isScalar at scalar
    simp [scalar, restrict, keep]

private theorem dropAll_rawShape (hint : Hint) (els : List Element) (c : Collection) {bs : List Pointer}
    (named : ∀ b ∈ bs, ∃ name, b.label = .ok name) :
    ((bs.map (rawShape hint els)).foldlM dropIfScalar c).outcome =
      .ok (restrict (fun b => !(bs.contains b && isScalar hint els b)) c) := by
  induction bs generalizing c with
  | nil => simp [restrict]
  | cons base bs ih =>
    obtain ⟨name, hname⟩ := named base (by simp)
    simp only [List.map_cons, List.foldlM_cons, Traced.outcome_bind,
      dropIfScalar_rawShape hint els c hname, ok_bind, ih _ fun b hb => named b (by simp [hb]),
      restrict_restrict]
    congr 2
    funext b
    rw [List.contains_cons]
    cases b == base <;> cases isScalar hint els b <;> simp

/-- What is known in the end: the objects that are arrays, with what was recorded of them. -/
def result (hint : Hint) (els : List Element) : Collection where
  registry := ⟨(arrayObjects hint els).map (rawShape hint els), []⟩
  hints := (arrayObjects hint els).map fun base => (base, told hint base)
  asked := objects els

theorem dropScalars_collected {els : List Element}
    (named : ∀ el ∈ els, ∃ name, (objectOf el).label = .ok name) :
    (dropScalars (collected hint els)).outcome = .ok (result hint els) := by
  have labels : ∀ b ∈ objects els, ∃ name, b.label = .ok name := by
    intro b hb
    obtain ⟨el, mem, rfl⟩ := mem_objects.mp hb
    exact named el mem
  have run := dropAll_rawShape hint els (collected hint els) labels
  have keep : ∀ b ∈ objects els, (!((objects els).contains b && isScalar hint els b)) =
      !isScalar hint els b := by
    intro b hb
    simp [hb]
  have same : restrict (fun b => !((objects els).contains b && isScalar hint els b))
      (collected hint els) = result hint els := by
    have own (b : Pointer) : (rawShape hint els b).base = b := rfl
    simp only [restrict, collected, result, arrayObjects, List.filter_map, Function.comp_def, own]
    rw [List.filter_congr keep]
  rw [← same]
  exact run

private theorem named_of_entries {accesses : List (Except Fault Access)}
    (found : entries hint width accesses = .ok els) :
    ∀ el ∈ els, ∃ name, (objectOf el).label = .ok name := by
  induction accesses generalizing els with
  | nil =>
    injection found with found
    simp [← found]
  | cons given rest ih =>
    simp only [entries, bind_eq_ok] at found
    obtain ⟨acc, -, found⟩ := found
    split at found
    · exact ih found
    · obtain ⟨el, here, found⟩ := bind_eq_ok.mp found
      obtain ⟨others, there, found⟩ := bind_eq_ok.mp found
      injection found with found
      subst found
      have first : ∃ name, (objectOf el).label = .ok name := by
        have ptr := entryOf_ptr here
        simp only [entryOf, bind_eq_ok] at here
        obtain ⟨-, -, b, text, -⟩ := here
        rw [objectOf, ptr]
        exact Pointer.label_of_text text
      simpa using ⟨first, ih there⟩

/-- The collection of the given accesses is that of their entries, and is refused where one of them
has none. -/
theorem ofAccesses_eq (hint : Hint) (width : Int) (accesses : List (Except Fault Access)) :
    (ofAccesses hint width accesses).outcome =
      (entries hint width accesses).map (result hint) := by
  have run := recordAll_collected hint width [] accesses
  have start : collected hint [] = empty := rfl
  simp only [ofAccesses, Traced.outcome_bind, ← start, run]
  cases found : entries hint width accesses with
  | error e => rfl
  | ok els =>
    simp only [Except.map, ok_bind, List.nil_append]
    exact dropScalars_collected (named_of_entries found)

theorem hintOf_result (hint : Hint) (els : List Element) (base : Pointer) :
    (result hint els).hintOf? base =
      if base ∈ arrayObjects hint els then some (told hint base) else none := by
  have found := find_map Prod.fst (fun b => (b, told hint b)) (fun _ => rfl)
    (arrayObjects hint els) base
  simp only [hintOf?, result, found]
  split <;> rfl

end ShapeRecovery.Collection
