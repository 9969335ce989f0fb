import ShapeRecovery.Proofs.Shape.Partition

namespace ShapeRecovery

open ShapeRecovery.Expr Collection

/-- The accesses to `base`, markers included. -/
def accessesOf (base : Pointer) (accs : List Access) : List Access :=
  accs.filter fun acc => acc.ptr.accessedObject = base

namespace Analysis

variable {settings : Settings} {source : HintSource} {width : Option Int} {hint : Hint} {w : Int}
  {accs : List Access} {els : List Element} {base : Pointer} {a : Analysis}

/-- The entries of the accesses to one object are those that all accesses have for it. -/
theorem entries_accessesOf (found : entries hint w (accs.map .ok) = .ok els) (base : Pointer) :
    entries hint w ((accessesOf base accs).map .ok) =
      .ok (els.filter fun el => objectOf el = base) := by
  rw [entries_eq_mapM] at found ⊢
  have same : counted (accessesOf base accs) = countedTo base accs := by
    simp only [counted, accessesOf, countedTo, List.filter_filter, Bool.and_comm]
  rw [same, countedTo]
  have each := mapM_eq_ok_iff.mp found
  clear found same
  generalize counted accs = given at each ⊢
  refine mapM_eq_ok_iff.mpr ?_
  induction each with
  | nil => exact .nil
  | @cons acc el given els here _ ih =>
    have object : objectOf el = acc.ptr.accessedObject := by rw [objectOf, entryOf_ptr here]
    by_cases own : acc.ptr.accessedObject = base
    · simp only [List.filter_cons, object, own, decide_true, if_true]
      exact .cons here ih
    · simpa [object, own] using ih

/-- Among the entries of one object only this object can be an array, and it is one if it is one
among all. -/
theorem mem_arrayObjects_filter {other : Pointer} :
    other ∈ arrayObjects hint (els.filter fun el => objectOf el = base) ↔
      other = base ∧ base ∈ arrayObjects hint els := by
  have scalar : isScalar hint (els.filter fun el => objectOf el = base) base =
      isScalar hint els base := by simp [isScalar, rawShape, List.filter_filter]
  simp only [arrayObjects, List.mem_filter, mem_objects]
  constructor
  · rintro ⟨⟨el, ⟨mem, own⟩, object⟩, array⟩
    obtain rfl : other = base := object.symm.trans (of_decide_eq_true own)
    exact ⟨rfl, ⟨el, mem, object⟩, by rwa [← scalar]⟩
  · rintro ⟨rfl, ⟨el, mem, object⟩, array⟩
    exact ⟨⟨el, ⟨mem, decide_eq_true object⟩, object⟩, by rwa [scalar]⟩

/-- What an analysis that ends finds for an object is what becomes of its array, if it is one. -/
theorem find_of_run (hhint : source.hint = .ok hint) (hw : width.getD settings.indexWidth = w)
    (found : entries hint w (accs.map .ok) = .ok els)
    (run : (ofAccesses settings source width (accs.map .ok)).outcome = .ok a) (base : Pointer) :
    a.registry.find? base = if base ∈ arrayObjects hint els
      then (recovered settings w hint els base).toOption else none := by
  obtain ⟨arrays, each, -, rfl⟩ := ofAccesses_run hhint hw found run
  split
  · next mem =>
    obtain ⟨shape, -, made⟩ := exists_of_forall₂ each.flip mem
    rw [made]
    exact find_of_mapM (mapM_eq_ok_iff.mpr each) (fun _ _ => recovered_base) mem made
  · next absent =>
    refine List.find?_eq_none.mpr fun shape mem same => absent ?_
    obtain ⟨base', mem', made⟩ := exists_of_forall₂ each mem
    rwa [← of_decide_eq_true same, recovered_base made]

/-- The work on the array of `base` needs the accesses to `base` only. -/
theorem recovered_filter (settings : Settings) (hint : Hint) (w : Int) (els : List Element)
    (base : Pointer) :
    recovered settings w hint (els.filter fun el => objectOf el = base) base =
      recovered settings w hint els base := by
  simp [recovered, rawShape, List.filter_filter]

/-- The analysis of the accesses to one object ends exactly if this object is no array or the work
on its array ends. -/
private theorem ends_of_one_iff (hhint : source.hint = .ok hint) (hw : width.getD settings.indexWidth = w)
    (found : entries hint w (accs.map .ok) = .ok els) (base : Pointer) :
    (∃ b, (ofAccesses settings source width ((accessesOf base accs).map .ok)).outcome = .ok b) ↔
      (base ∈ arrayObjects hint els → ∃ shape, recovered settings w hint els base = .ok shape ∧
        (settings.trace = true →
          ∃ ls, Registry.arrayLines settings.indexWidth shape = .ok ls)) := by
  rw [ends_iff hhint hw (entries_accessesOf found base)]
  simp only [mem_arrayObjects_filter]
  constructor
  · intro each mem
    obtain ⟨shape, made, lines⟩ := each base ⟨rfl, mem⟩
    exact ⟨shape, by rwa [recovered_filter] at made, lines⟩
  · rintro one other ⟨rfl, mem⟩
    obtain ⟨shape, made, lines⟩ := one mem
    exact ⟨shape, by rwa [recovered_filter], lines⟩

private theorem find_of_one_run (hhint : source.hint = .ok hint)
    (hw : width.getD settings.indexWidth = w) (found : entries hint w (accs.map .ok) = .ok els)
    {b : Analysis}
    (run : (ofAccesses settings source width ((accessesOf base accs).map .ok)).outcome = .ok b) :
    b.registry.find? base = if base ∈ arrayObjects hint els
      then (recovered settings w hint els base).toOption else none := by
  rw [find_of_run hhint hw (entries_accessesOf found base) run base, recovered_filter]
  simp only [mem_arrayObjects_filter, true_and]

/-- The analysis of all accesses ends exactly if that of the accesses to each object does, and then
both find the same array for each object, or none. -/
theorem ofAccesses_split (hhint : source.hint = .ok hint)
    (pos : 0 < width.getD settings.indexWidth) (fit : ∀ acc ∈ accs, acc.ptr.WellFormed) :
    ((∃ a, (ofAccesses settings source width (accs.map .ok)).outcome = .ok a) ↔
      ∀ base, ∃ b,
        (ofAccesses settings source width ((accessesOf base accs).map .ok)).outcome = .ok b) ∧
    ∀ a, (ofAccesses settings source width (accs.map .ok)).outcome = .ok a → ∀ base b,
      (ofAccesses settings source width ((accessesOf base accs).map .ok)).outcome = .ok b →
        b.registry.find? base = a.registry.find? base := by
  obtain ⟨els, found, -⟩ := entries_total hint pos fit
  constructor
  · rw [ends_iff hhint rfl found]
    exact forall_congr' fun base => (ends_of_one_iff hhint rfl found base).symm
  · intro a run base b run'
    rw [find_of_run hhint rfl found run base, find_of_one_run hhint rfl found run']

/-- Arrays do not interfere but for the end of the analysis: it ends exactly if the analysis of the
accesses to each object does, each object has the same array in both, and the same holds for all
ways in which the accesses to several objects may alternate. -/
theorem arrays_independent (hhint : source.hint = .ok hint)
    (pos : 0 < width.getD settings.indexWidth) (fit : ∀ acc ∈ accs, acc.ptr.WellFormed) :
    ((∃ a, (ofAccesses settings source width (accs.map .ok)).outcome = .ok a) ↔
      ∀ base, ∃ b,
        (ofAccesses settings source width ((accessesOf base accs).map .ok)).outcome = .ok b) ∧
    (∀ a, (ofAccesses settings source width (accs.map .ok)).outcome = .ok a → ∀ base, ∃ b,
      (ofAccesses settings source width ((accessesOf base accs).map .ok)).outcome = .ok b ∧
        b.registry.find? base = a.registry.find? base) ∧
    ∀ accs', (∀ base, accessesOf base accs' = accessesOf base accs) →
      ((∃ a, (ofAccesses settings source width (accs'.map .ok)).outcome = .ok a) ↔
        ∃ a, (ofAccesses settings source width (accs.map .ok)).outcome = .ok a) ∧
      ∀ a a', (ofAccesses settings source width (accs.map .ok)).outcome = .ok a →
        (ofAccesses settings source width (accs'.map .ok)).outcome = .ok a' →
          ∀ base, a'.registry.find? base = a.registry.find? base := by
  obtain ⟨ends, agree⟩ := ofAccesses_split hhint pos fit
  refine ⟨ends, fun a run base => ?_, fun accs' alternate => ?_⟩
  · obtain ⟨b, run'⟩ := ends.mp ⟨a, run⟩ base
    exact ⟨b, run', agree a run base b run'⟩
  · have fit' : ∀ acc ∈ accs', acc.ptr.WellFormed := by
      intro acc mem
      have own : acc ∈ accessesOf acc.ptr.accessedObject accs' :=
        List.mem_filter.mpr ⟨mem, decide_eq_true rfl⟩
      rw [alternate] at own
      exact fit acc (List.mem_filter.mp own).1
    obtain ⟨ends', agree'⟩ := ofAccesses_split hhint pos fit'
    simp only [alternate] at ends' agree'
    refine ⟨ends'.trans ends.symm, fun a a' run run' base => ?_⟩
    obtain ⟨b, own⟩ := ends.mp ⟨a, run⟩ base
    exact (agree' a' run' base b own).symm.trans (agree a run base b own)

theorem arrays_independent_mixed : (∀ acc ∈ mixed, acc.ptr.WellFormed) ∧
    ∃ a b, (ofAccesses ⟨64, false⟩ .declarations none (mixed.map .ok)).outcome = .ok a ∧
      (ofAccesses ⟨64, false⟩ .declarations none ((accessesOf row mixed).map .ok)).outcome = .ok b ∧
      b.registry.find? row = a.registry.find? row := by
  have source : HintSource.declarations.hint = .ok Pointer.declaredSizes := rfl
  have pos : (0 : Int) < (none : Option Int).getD (Settings.mk 64 false).indexWidth := by decide
  obtain ⟨-, agree, -⟩ := arrays_independent source pos mixed_wellFormed
  have ends : (ofAccesses ⟨64, false⟩ .declarations none (mixed.map .ok)).outcome.isOk = true := by
    decide +kernel
  obtain ⟨a, run⟩ := exists_of_isOk ends
  obtain ⟨b, own, same⟩ := agree a run row
  exact ⟨mixed_wellFormed, a, b, run, own, same⟩

/-- An access to another object than the refused one. -/
def plainStore : Access := ⟨1, .store, .index row [offset]⟩

/-- Alone the one array is found; beside a refused search for the other it is not. -/
theorem independence_refused : (∀ acc ∈ [refusedLoad, plainStore], acc.ptr.WellFormed) ∧
    (∃ b, (ofAccesses ⟨64, false⟩ .declarations none
        ((accessesOf row [refusedLoad, plainStore]).map .ok)).outcome = .ok b ∧
      (b.registry.find? row).isSome = true) ∧
    ¬ ∃ a, (ofAccesses ⟨64, false⟩ .declarations none
      ([refusedLoad, plainStore].map .ok)).outcome = .ok a := by
  have both : (ofAccesses ⟨64, false⟩ .declarations none
      ([refusedLoad, plainStore].map .ok)).outcome = .error .notNonzeroConstant := by
    decide +kernel
  have alone : ((ofAccesses ⟨64, false⟩ .declarations none
      ((accessesOf row [refusedLoad, plainStore]).map .ok)).outcome.map
        fun b => (b.registry.find? row).isSome) = .ok true := by
    decide +kernel
  refine ⟨by decide +kernel, ?_, ?_⟩
  · exact map_eq_ok.mp alone
  · rintro ⟨a, run⟩
    rw [both] at run
    cases run

end Analysis

end ShapeRecovery
