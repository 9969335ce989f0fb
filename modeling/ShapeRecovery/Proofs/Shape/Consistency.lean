import ShapeRecovery.Proofs.Shape.Partition
import ShapeRecovery.Proofs.Shape.Recovery

namespace ShapeRecovery

open ShapeRecovery.Expr Collection

section collected

variable {hint : Hint} {w : Int} {accs : List Access} {els : List Element} {base : Pointer}

/-- A valid access to one element has as many subscripts as sizes are declared, if any are. -/
private theorem count_of_entries {accesses : List (Except Fault Access)}
    (run : entries hint w accesses = .ok els) :
    ∀ el ∈ els, el.isElement = true → el.isValid = true → told hint (objectOf el) ≠ [] →
      el.subscripts.length = (told hint (objectOf el)).length := by
  induction accesses generalizing els with
  | nil =>
    cases run
    simp
  | cons given accesses ih =>
    obtain ⟨acc, -, run⟩ := bind_eq_ok.mp run
    split at run
    · exact ih run
    · obtain ⟨el, here, run⟩ := bind_eq_ok.mp run
      obtain ⟨others, rest, run⟩ := bind_eq_ok.mp run
      cases run
      refine List.forall_mem_cons.mpr ⟨fun single valid declared => ?_, ih rest⟩
      have object : objectOf el = acc.ptr.accessedObject := by rw [objectOf, entryOf_ptr here]
      rw [object] at declared ⊢
      simp only [entryOf, bind_eq_ok] at here
      obtain ⟨-, -, -, -, subs, -, padding, -, -, -, made⟩ := here
      cases made
      have some : 0 < (told hint acc.ptr.accessedObject).length := List.length_pos_of_ne_nil declared
      simp only [elementOf] at single valid ⊢
      simpa [single, some] using valid

/-- Every collected array is one before its sizes are inferred. -/
theorem raw_of_recorded (run : entries hint w (accs.map .ok) = .ok els)
    (recorded : List.Forall₂ (RecordedAs hint) (counted accs) els)
    (fit : ∀ acc ∈ accs, acc.ptr.WellFormed) (mem : base ∈ arrayObjects hint els) :
    ArrayShape.Raw (told hint base) (rawShape hint els base) where
  dims := rfl
  unsized := rfl
  base := by
    obtain ⟨known, -⟩ := List.mem_filter.mp mem
    obtain ⟨el, hel, rfl⟩ := mem_objects.mp known
    obtain ⟨acc, hacc, here⟩ := exists_of_forall₂ recorded hel
    have fits := (fit acc (List.mem_filter.mp hacc).1).accessedObject
    change (objectOf el).WellFormed
    rwa [objectOf, here.ptr]
  elements := by
    intro el hel
    obtain ⟨acc, -, here⟩ := exists_of_forall₂ recorded (List.mem_filter.mp hel).1
    exact here.wellFormed
  count := by
    intro declared el hel
    obtain ⟨hel, valid⟩ := List.mem_filter.mp hel
    obtain ⟨known, same⟩ := List.mem_filter.mp hel
    simp only [Bool.and_eq_true, decide_eq_true_eq] at valid same
    have count := count_of_entries run el known valid.1 valid.2
    rw [same] at count
    exact count declared

end collected

namespace Analysis

open ArrayShape

variable {settings : Settings} {source : HintSource} {hint : Hint} {width : Option Int} {w : Int}
  {accs : List Access} {a : Analysis}

/-- In an analysis that ends, every array is what becomes of a collected one. -/
theorem arrays_recovered (hhint : source.hint = .ok hint) (hw : width.getD settings.indexWidth = w)
    (pos : 0 < w) (fit : ∀ acc ∈ accs, acc.ptr.WellFormed)
    (run : (ofAccesses settings source width (accs.map .ok)).outcome = .ok a) :
    ∃ c, (Collection.ofAccesses hint w (accs.map .ok)).outcome = .ok c ∧
      ∀ shape ∈ a.registry.arrays, ∃ raw, c.registry.find? shape.base = some raw ∧
        Raw (told hint shape.base) raw ∧
        (recover settings w (told hint shape.base) raw).outcome = .ok shape := by
  obtain ⟨els, hels, recorded⟩ := entries_total hint pos fit
  obtain ⟨arrays, each, -, rfl⟩ := ofAccesses_run hhint hw hels run
  refine ⟨result hint els, by rw [Collection.ofAccesses_eq, hels]; rfl, fun shape mem => ?_⟩
  obtain ⟨base, known, made⟩ := exists_of_forall₂ each mem
  have same := recovered_base made
  subst same
  have found := find_map ArrayShape.base (rawShape hint els) (fun _ => rfl) (arrayObjects hint els)
    shape.base
  rw [if_pos known] at found
  exact ⟨_, found, raw_of_recorded hels recorded fit known, made⟩

/-- An array agrees with its own mark, with the hint and with the collected array. -/
structure Consistent (hint : Hint) (w : Int) (c : Collection) (shape : ArrayShape) : Prop where
  /-- It is sized exactly if it has dimensions and all inner sizes are known. -/
  sized : shape.sized = true ↔ 1 ≤ shape.dims.length ∧
    ∀ (d : Nat) dim, shape.dims[d]? = some dim → 1 ≤ d → dim.size ≠ .uncomputable
  /-- There are as many dimensions as declared sizes. -/
  length : ∀ sizes, hint shape.base = some sizes → sizes ≠ [] → shape.dims.length = sizes.length
  /-- A positive declared size that is not zero as a word is the size of its dimension. -/
  declared : ∀ sizes, hint shape.base = some sizes → ∀ (d : Nat) (size : Int),
    sizes[d]? = some size → 0 < size → ¬ (Word.modulus w : Int) ∣ size →
      ∃ e, Expr.ofInt size w = .ok e ∧ shape.dims[d]? = some (Dimension.mk e true)
  /-- In a sized array valid accesses to one element have a subscript for each dimension. -/
  count : shape.sized = true → ∀ el ∈ shape.elements, el.isElement = true → el.isValid = true →
    el.subscripts.length = shape.dims.length
  /-- In an array that is not sized the accesses are those that were collected. -/
  untouched : shape.sized = false →
    ∃ raw, c.registry.find? shape.base = some raw ∧ shape.elements = raw.elements

/-- Any property may be asked of sizes if any refusal is allowed. -/
private theorem searches_any (settings : Settings) : Searches (fun _ => True) settings fun _ => True where
  closed := hereditary_true _
  nonzero := .inl trivial
  width := .inl trivial

theorem Recovered.consistent {P : Nat → Expr → Prop} {c : Collection} {raw shape : ArrayShape}
    (recovered : Recovered P w (told hint shape.base) raw shape)
    (known : c.registry.find? shape.base = some raw) : Consistent hint w c shape where
  sized := recovered.sized
  length := by
    intro sizes asked some
    have declared : told hint shape.base = sizes := by simp [told, asked]
    rw [← declared] at some ⊢
    exact recovered.length some
  declared := by
    intro sizes asked d size here positive apart
    have declared : told hint shape.base = sizes := by simp [told, asked]
    have some : sizes ≠ [] := List.ne_nil_of_mem (List.mem_of_getElem? here)
    have length := recovered.length (declared ▸ some)
    obtain ⟨inside, -⟩ := List.getElem?_eq_some_iff.mp here
    have below : d < shape.dims.length := by rw [length, declared]; exact inside
    have known : knownHint? (told hint shape.base) d = Option.some size := by
      simp [knownHint?, declared, here, isKnownSize, positive]
    obtain ⟨e, run, found⟩ :=
      recovered.declared d _ (List.getElem?_eq_getElem below) size known apart
    exact ⟨e, run, by rw [List.getElem?_eq_getElem below, found]⟩
  count := by
    intro sized el hel single valid
    exact recovered.count sized el (List.mem_filter.mpr ⟨hel, by simp [single, valid]⟩)
  untouched unsized := ⟨raw, known, recovered.untouched unsized⟩

/-- Every array of an analysis that ends is consistent, whether or not its sizes were found. -/
theorem arrays_consistent (hhint : source.hint = .ok hint) (pos : 0 < width.getD settings.indexWidth)
    (fit : ∀ acc ∈ accs, acc.ptr.WellFormed)
    (run : (ofAccesses settings source width (accs.map .ok)).outcome = .ok a) :
    ∃ c, (Collection.ofAccesses hint (width.getD settings.indexWidth) (accs.map .ok)).outcome = .ok c ∧
      ∀ shape ∈ a.registry.arrays, Consistent hint (width.getD settings.indexWidth) c shape := by
  obtain ⟨c, collected, each⟩ := arrays_recovered hhint rfl pos fit run
  refine ⟨c, collected, fun shape mem => ?_⟩
  obtain ⟨raw, known, fresh, made⟩ := each shape mem
  have rows : Searchable (fun _ _ => True) raw.validElements := {
    wellFormed := fun el hel => (fresh.elements el (List.mem_filter.mp hel).1).subscripts
    sought := fun _ _ _ _ _ _ _ => trivial }
  have ends := recover_ends (fun _ => searches_any settings) pos fresh rows
  exact (ends.of_run made).consistent known

/-- Two of three sizes are declared, and the third one is not found. -/
def partly : HintSource := .table [(table, some [6, 0, 4])]

theorem arrays_consistent_partly : (∀ acc ∈ mixed, acc.ptr.WellFormed) ∧
    ∃ hint a c, partly.hint = .ok hint ∧
      (ofAccesses ⟨64, false⟩ partly none (mixed.map .ok)).outcome = .ok a ∧
      (a.registry.arrays.map fun shape => (shape.base, shape.sized)) = [(table, false), (row, true)] ∧
      ∀ shape ∈ a.registry.arrays, Consistent hint 64 c shape := by
  have pos : (0 : Int) < (none : Option Int).getD (Settings.mk 64 false).indexWidth := by decide
  have ends : ((ofAccesses ⟨64, false⟩ partly none (mixed.map .ok)).outcome.map fun a =>
      a.registry.arrays.map fun shape => (shape.base, shape.sized)) =
        .ok [(table, false), (row, true)] := by decide +kernel
  obtain ⟨a, run, arrays⟩ := map_eq_ok.mp ends
  have source : partly.hint = .ok _ := rfl
  obtain ⟨c, -, consistent⟩ := arrays_consistent source pos mixed_wellFormed run
  exact ⟨mixed_wellFormed, _, a, c, rfl, run, arrays, consistent⟩

end Analysis

end ShapeRecovery
