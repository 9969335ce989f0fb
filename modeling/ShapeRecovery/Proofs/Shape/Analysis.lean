import ShapeRecovery.Proofs.Shape.Collection
import ShapeRecovery.Proofs.Shape.Frame

namespace ShapeRecovery.Analysis

open Collection

/-- What becomes of the array of one object. -/
def recovered (settings : Settings) (width : Int) (hint : Hint) (els : List Element)
    (base : Pointer) : Except Fault ArrayShape :=
  (recover settings width (told hint base) (rawShape hint els base)).outcome

/-- Lines for all arrays, where they are to be listed. -/
def listed (settings : Settings) (arrays : List ArrayShape) : Except Fault Unit := do
  if settings.trace then
    let _ ← arrays.mapM (Registry.arrayLines settings.indexWidth)
    return

private theorem recoverAll_eq_mapM (settings : Settings) (width : Int) (c : Collection)
    (shapes : List ArrayShape) :
    (recoverAll settings width c shapes).outcome = shapes.mapM fun shape =>
      (recover settings width ((c.hintOf? shape.base).getD []) shape).outcome := by
  induction shapes with
  | nil => rfl
  | cons shape rest ih =>
    simp only [recoverAll, List.mapM_cons, Traced.outcome_bind, Traced.outcome_pure, ih]
    rfl

/-- An analysis collects, works on each array, and lists the arrays where this is wanted. -/
theorem ofAccesses_eq (settings : Settings) (source : HintSource) (width : Option Int)
    (accesses : List (Except Fault Access)) :
    (ofAccesses settings source width accesses).outcome = do
      let hint ← source.hint
      let els ← entries hint (width.getD settings.indexWidth) accesses
      let arrays ← (arrayObjects hint els).mapM
        (recovered settings (width.getD settings.indexWidth) hint els)
      listed settings arrays
      return ⟨Registry.fillPlaces ⟨arrays, []⟩, objects els⟩ := by
  simp only [ofAccesses, Traced.outcome_bind, Traced.outcome_lift]
  cases source.hint with
  | error e => rfl
  | ok hint =>
    simp only [ok_bind, Collection.ofAccesses_eq, recoverAll_eq_mapM]
    cases entries hint (width.getD settings.indexWidth) accesses with
    | error e => rfl
    | ok els =>
      have told : ((result hint els).registry.arrays.mapM fun shape =>
          (recover settings (width.getD settings.indexWidth)
            (((result hint els).hintOf? shape.base).getD []) shape).outcome) =
          (arrayObjects hint els).mapM
            (recovered settings (width.getD settings.indexWidth) hint els) := by
        have arrays : (result hint els).registry.arrays =
            (arrayObjects hint els).map (rawShape hint els) := rfl
        rw [arrays, List.mapM_map]
        refine mapM_congr fun base mem => ?_
        have known := hintOf_result hint els base
        rw [if_pos mem] at known
        change (recover settings _ (((result hint els).hintOf? base).getD []) _).outcome = _
        rw [known]
        rfl
      simp only [Except.map, ok_bind, told]
      cases (arrayObjects hint els).mapM
          (recovered settings (width.getD settings.indexWidth) hint els) with
      | error e => rfl
      | ok arrays =>
        have same : (result hint els).registry.places = [] := rfl
        simp only [ok_bind, listed, same]
        cases settings.trace with
        | false => rfl
        | true =>
          simp only [if_true, Traced.outcome_bind, Traced.outcome_lift, Registry.listing,
            Registry.fillPlaces]
          cases arrays.mapM (Registry.arrayLines settings.indexWidth) <;> rfl

/-- What is given is an access to `base`. -/
def isAccessTo (base : Pointer) : Except Fault Access → Bool
  | .ok acc => acc.ptr.accessedObject = base
  | .error _ => false

/-- The accesses to `base`, markers left out. -/
def accessesTo (base : Pointer) : List (Except Fault Access) → List Access
  | [] => []
  | .ok acc :: rest =>
    if acc.ptr.accessedObject = base ∧ acc.kind.isIgnored = false then acc :: accessesTo base rest
    else accessesTo base rest
  | .error _ :: rest => accessesTo base rest

/-- The accesses other than those to `base`. -/
def accessesBeside (base : Pointer) (accesses : List (Except Fault Access)) :
    List (Except Fault Access) :=
  accesses.filter fun given => !isAccessTo base given

variable {settings : Settings} {hint : Hint} {w : Int} {base : Pointer}
  {accesses : List (Except Fault Access)} {mine others : List Element}

/-- The entries are those of the accesses to one object among those of the others. -/
private theorem entries_split (own : (accessesTo base accesses).mapM (entryOf hint w) = .ok mine)
    (rest : entries hint w (accessesBeside base accesses) = .ok others) :
    ∃ els, entries hint w accesses = .ok els ∧ (els.filter fun el => objectOf el = base) = mine ∧
      (els.filter fun el => objectOf el ≠ base) = others := by
  induction accesses generalizing mine others with
  | nil =>
    injection own with own
    injection rest with rest
    exact ⟨[], rfl, own, rest⟩
  | cons given accesses ih =>
    cases given with
    | error e => simp [accessesBeside, isAccessTo, entries, bind, Except.bind] at rest
    | ok acc =>
      by_cases here : acc.ptr.accessedObject = base
      · have beside : accessesBeside base (.ok acc :: accesses) = accessesBeside base accesses := by
          simp [accessesBeside, isAccessTo, here]
        rw [beside] at rest
        by_cases marker : acc.kind.isIgnored = true
        · simp only [accessesTo, here, marker, Bool.true_eq_false, and_false, if_false] at own
          obtain ⟨els, run, found⟩ := ih own rest
          exact ⟨els, by simp [entries, marker, run], found⟩
        · simp only [accessesTo, here, marker, and_true, if_true, List.mapM_cons] at own
          obtain ⟨el, hel, own⟩ := bind_eq_ok.mp own
          obtain ⟨mine', own, made⟩ := bind_eq_ok.mp own
          injection made with made
          obtain ⟨els, run, found, found'⟩ := ih own rest
          have object : objectOf el = base := by rw [objectOf, entryOf_ptr hel, here]
          refine ⟨el :: els, by simp [entries, marker, hel, run], ?_, ?_⟩
          · simp [object, found, made]
          · simp [object, ← found']
      · have beside : accessesBeside base (.ok acc :: accesses) =
            .ok acc :: accessesBeside base accesses := by
          simp [accessesBeside, isAccessTo, here]
        rw [beside] at rest
        simp only [accessesTo, here, false_and, if_false] at own
        by_cases marker : acc.kind.isIgnored = true
        · simp only [entries, ok_bind, marker, if_true] at rest ⊢
          exact ih own rest
        · simp only [entries, ok_bind, marker, Bool.false_eq_true, if_false] at rest
          obtain ⟨el, hel, rest⟩ := bind_eq_ok.mp rest
          obtain ⟨others', rest, made⟩ := bind_eq_ok.mp rest
          injection made with made
          obtain ⟨els, run, found, found'⟩ := ih own rest
          have object : objectOf el ≠ base := by rwa [objectOf, entryOf_ptr hel]
          refine ⟨el :: els, by simp [entries, marker, hel, run], ?_, ?_⟩
          · simp [object, ← found]
          · simp [object, ← made, ← found']

/-- The entries of one object are those of the accesses to it. -/
private theorem entries_own {els : List Element} (run : entries hint w accesses = .ok els) :
    (accessesTo base accesses).mapM (entryOf hint w) =
      .ok (els.filter fun el => objectOf el = base) := by
  induction accesses generalizing els with
  | nil =>
    injection run with run
    subst run
    rfl
  | cons given accesses ih =>
    obtain ⟨acc, rfl, rest⟩ := bind_eq_ok.mp run
    by_cases marker : acc.kind.isIgnored = true
    · rw [if_pos marker] at rest
      simpa [accessesTo, marker] using ih rest
    · rw [if_neg marker] at rest
      obtain ⟨el, hel, run⟩ := bind_eq_ok.mp rest
      obtain ⟨others, hothers, run⟩ := bind_eq_ok.mp run
      injection run with run
      subst run
      have object : objectOf el = acc.ptr.accessedObject := by rw [objectOf, entryOf_ptr hel]
      by_cases here : acc.ptr.accessedObject = base
      · simp [accessesTo, here, marker, object, List.mapM_cons, hel, ih hothers]
      · simp [accessesTo, here, object, ih hothers]

/-- The array of an object is made of the accesses to it. -/
theorem recovered_congr {els els' : List Element}
    (same : (els.filter fun el => objectOf el = base) = els'.filter fun el => objectOf el = base) :
    recovered settings w hint els base = recovered settings w hint els' base ∧
      isScalar hint els base = isScalar hint els' base := by
  simp [recovered, isScalar, rawShape, same]

theorem finalState_ok {σ : Type} {x : Tracked σ Unit} {s t : σ}
    (run : (Tracked.finalState x s).outcome = .ok t) : t = (Tracked.outcome x s).2 := by
  rw [Tracked.outcome_finalState] at run
  cases ended : (Tracked.outcome x s).1 with
  | error e => simp [ended, Except.map] at run
  | ok u =>
    rw [ended] at run
    injection run with run
    exact run.symm

/-- The work on an array keeps its object and its accesses. -/
theorem recover_run {sizes : List Int} {raw shape : ArrayShape}
    (run : (recover settings w sizes raw).outcome = .ok shape) :
    shape.base = raw.base ∧ List.Forall₂ Element.Revises raw.elements shape.elements := by
  simp only [recover, Traced.outcome_bind] at run
  obtain ⟨sized, first, run⟩ := bind_eq_ok.mp run
  have kept := (ArrayShape.findSizes_keeps settings w sizes).same raw
  rw [← finalState_ok first] at kept
  obtain ⟨same, elements⟩ : sized.base = raw.base ∧ sized.elements = raw.elements :=
    Prod.mk.inj kept
  split at run
  · have kept' := (ArrayShape.normalize_keeps settings w).same sized
    have revised := ArrayShape.normalize_revises settings w sized
    rw [← finalState_ok run] at kept' revised
    exact ⟨(congrArg Prod.fst kept').trans same, elements ▸ revised⟩
  · simp only [Traced.outcome_bind, Traced.outcome_say, Traced.outcome_pure, ok_bind] at run
    obtain ⟨-, -, run⟩ := bind_eq_ok.mp run
    injection run with run
    subst run
    exact ⟨same, elements ▸ Element.Revises.all_refl _⟩

theorem recovered_base {els : List Element} {shape : ArrayShape}
    (run : recovered settings w hint els base = .ok shape) : shape.base = base :=
  (recover_run run).1

theorem find_of_mapM {make : Pointer → Except Fault ArrayShape} {bs : List Pointer}
    {shapes : List ArrayShape} {shape : ArrayShape} (run : bs.mapM make = .ok shapes)
    (own : ∀ b s, make b = .ok s → s.base = b) (mem : base ∈ bs) (here : make base = .ok shape) :
    shapes.find? (fun s => s.base = base) = some shape := by
  have each := mapM_eq_ok_iff.mp run
  induction each with
  | nil => simp at mem
  | @cons b s bs shapes first _ ih =>
    by_cases same : b = base
    · subst same
      obtain rfl : s = shape := by simpa [first] using here
      simp [own _ _ first]
    · have apart : s.base ≠ base := by rwa [own _ _ first]
      have mem' : base ∈ bs := by simpa [Ne.symm same] using mem
      have rest : bs.mapM make = .ok shapes := mapM_eq_ok_iff.mpr (by assumption)
      simpa [apart] using ih rest mem'

/-- Arrays can be listed if each of them can. -/
theorem listed_ok_iff {arrays : List ArrayShape} :
    listed settings arrays = .ok () ↔ (settings.trace = true → ∀ shape ∈ arrays,
      ∃ ls, Registry.arrayLines settings.indexWidth shape = .ok ls) := by
  unfold listed
  cases settings.trace with
  | false => simp
  | true =>
    simp only [if_true, true_imp_iff]
    constructor
    · intro run shape mem
      obtain ⟨parts, each, -⟩ := bind_eq_ok.mp run
      obtain ⟨ls, -, hls⟩ := exists_of_mapM each mem
      exact ⟨ls, hls⟩
    · intro each
      obtain ⟨parts, hparts⟩ := mapM_total each
      simp [hparts]

theorem mem_arrayObjects {els : List Element}
    (found : (els.filter fun el => objectOf el = base) = mine) (some : mine ≠ [])
    (array : isScalar hint mine base = false) : base ∈ arrayObjects hint els := by
  obtain ⟨el, mem⟩ := List.exists_mem_of_ne_nil mine some
  rw [← found, List.mem_filter] at mem
  have known : base ∈ objects els := mem_objects.mpr ⟨el, mem.1, of_decide_eq_true mem.2⟩
  have same : isScalar hint els base = isScalar hint mine base := by
    simp [isScalar, rawShape, ← found, List.filter_filter]
  exact List.mem_filter.mpr ⟨known, by simp [same, array]⟩

/-- An analysis that ends finds what becomes of the array of each object. -/
theorem find_of_ofAccesses {source : HintSource} {width : Option Int} {a : Analysis}
    {shape : ArrayShape} (hhint : source.hint = .ok hint) (hw : width.getD settings.indexWidth = w)
    (all : (ofAccesses settings source width accesses).outcome = .ok a)
    (own : (accessesTo base accesses).mapM (entryOf hint w) = .ok mine) (some : mine ≠ [])
    (array : isScalar hint mine base = false)
    (run : recovered settings w hint mine base = .ok shape) :
    a.registry.find? base = Option.some shape := by
  simp only [ofAccesses_eq, hhint, hw, ok_bind, bind_eq_ok] at all
  obtain ⟨els, hels, arrays, harrays, -, -, made⟩ := all
  injection made with made
  subst made
  have found : (els.filter fun el => objectOf el = base) = mine := by
    have both := (entries_own hels).symm.trans own
    injection both
  obtain ⟨recover', -⟩ := @recovered_congr settings hint w base els mine (by
    simp [← found, List.filter_filter])
  have member := mem_arrayObjects found some array
  exact find_of_mapM harrays (fun _ _ => recovered_base) member (recover'.trans run)

/-- If the accesses to other objects can be analyzed, and those to `base` are recorded and make an
array, the analysis of all of them ends, and finds what becomes of this array. -/
theorem ofAccesses_of_beside {source : HintSource} {width : Option Int} {rest : Analysis}
    {shape : ArrayShape} (hhint : source.hint = .ok hint) (hw : width.getD settings.indexWidth = w)
    (beside : (ofAccesses settings source width (accessesBeside base accesses)).outcome = .ok rest)
    (own : (accessesTo base accesses).mapM (entryOf hint w) = .ok mine) (some : mine ≠ [])
    (array : isScalar hint mine base = false) (run : recovered settings w hint mine base = .ok shape)
    (lines : ∃ ls, Registry.arrayLines settings.indexWidth shape = .ok ls) :
    ∃ a, (ofAccesses settings source width accesses).outcome = .ok a ∧
      a.registry.find? base = Option.some shape := by
  simp only [ofAccesses_eq, hhint, hw, ok_bind, bind_eq_ok] at beside ⊢
  obtain ⟨others, hothers, arrays, harrays, u, hlist, -⟩ := beside
  obtain ⟨els, hels, found, found'⟩ := entries_split own hothers
  obtain ⟨recover', -⟩ := @recovered_congr settings hint w base els mine (by
    simp [← found, List.filter_filter])
  have member := mem_arrayObjects found some array
  have each : ∀ b ∈ arrayObjects hint els, ∃ s, recovered settings w hint els b = .ok s ∧
      (settings.trace = true → ∃ ls, Registry.arrayLines settings.indexWidth s = .ok ls) := by
    intro b mem
    by_cases same : b = base
    · subst same
      exact ⟨shape, recover'.trans run, fun _ => lines⟩
    · obtain ⟨recover'', scalar''⟩ := @recovered_congr settings hint w b els others (by
        rw [← found', List.filter_filter]
        refine List.filter_congr fun el _ => ?_
        by_cases object : objectOf el = b
        · simp [object, same]
        · simp [object])
      obtain ⟨known, kept⟩ := List.mem_filter.mp mem
      obtain ⟨el, hel, object⟩ := mem_objects.mp known
      have mem' : b ∈ arrayObjects hint others := by
        refine List.mem_filter.mpr ⟨mem_objects.mpr ⟨el, ?_, object⟩, by rwa [← scalar'']⟩
        rw [← found']
        exact List.mem_filter.mpr ⟨hel, by simp [object, same]⟩
      obtain ⟨s, hs, made⟩ := exists_of_mapM harrays mem'
      exact ⟨s, recover''.trans made, fun trace => listed_ok_iff.mp hlist trace s hs⟩
  obtain ⟨shapes, hshapes, -, all⟩ := mapM_all each
  refine ⟨_, ⟨els, hels, shapes, hshapes, (), listed_ok_iff.mpr ?_, rfl⟩, ?_⟩
  · exact fun trace s hs => all s hs trace
  · exact find_of_mapM hshapes (fun _ _ => recovered_base) member (recover'.trans run)

end ShapeRecovery.Analysis
