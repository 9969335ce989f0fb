import ShapeRecovery.Proofs.Shape.Consistency

namespace ShapeRecovery.Analysis

open ShapeRecovery.Expr ArrayShape

variable {settings : Settings} {source : HintSource} {hint : Hint} {width : Option Int} {w : Int}
  {accs : List Access} {a : Analysis}

/-- The loops in what the search takes whole of the subscripts before `d` of some accesses. -/
def SoughtLoop (els : List Element) (d : Nat) (l : Loop) : Prop :=
  ∃ el ∈ els, ∃ s ∈ el.subscripts.take d, ∃ p ∈ pieces false s, l ∈ p.loops

private theorem searches_within (settings : Settings) (L : Loop → Prop) :
    Searches (fun _ => True) settings (Within L) where
  closed := hereditary_within _ L
  nonzero := .inl trivial
  width := .inl trivial

/-- Every loop that a size depends on occurs in what the search takes whole of an outer subscript. -/
theorem loops_of_size (hhint : source.hint = .ok hint) (pos : 0 < width.getD settings.indexWidth)
    (fit : ∀ acc ∈ accs, acc.ptr.WellFormed)
    (run : (ofAccesses settings source width (accs.map .ok)).outcome = .ok a) :
    ∃ c, (Collection.ofAccesses hint (width.getD settings.indexWidth) (accs.map .ok)).outcome = .ok c ∧
      ∀ shape ∈ a.registry.arrays, ∃ raw, c.registry.find? shape.base = some raw ∧
        ∀ (d : Nat) dim, shape.dims[d]? = some dim → ∀ l ∈ dim.size.loops,
          SoughtLoop raw.validElements d l := by
  obtain ⟨c, collected, each⟩ := arrays_recovered hhint rfl pos fit run
  refine ⟨c, collected, fun shape mem => ?_⟩
  obtain ⟨raw, known, fresh, made⟩ := each shape mem
  refine ⟨raw, known, fun d dim here l hl => ?_⟩
  have rows : Searchable (fun d => Within (SoughtLoop raw.validElements d)) raw.validElements := {
    wellFormed := fun el hel => (fresh.elements el (List.mem_filter.mp hel).1).subscripts
    sought := fun el hel d s hs p hp l hl => ⟨el, hel, s, hs, p, hp, hl⟩ }
  have ends := recover_ends (fun d => searches_within settings _) pos fresh rows
  rcases (ends.of_run made).fits d dim here with unknown | ⟨within, -⟩
  · simp [unknown, loops] at hl
  · exact within l hl

/-- The number of an iteration. -/
def counter (l : Loop) : Expr := recurrence (const 0 64) (const 1 64) l

def outermost : Loop := ⟨⟨"i", 4⟩, 0⟩

/-- A recurrence whose step moves in another loop, times one of a third loop. -/
def nested : Expr :=
  product [counter ⟨⟨"k", 6⟩, 0⟩, recurrence (const 0 64) (counter outermost) ⟨⟨"j", 5⟩, 1⟩]

def nestedLoad : Access := ⟨0, .load, .index table [nested, offset]⟩

theorem nestedLoad_wellFormed : ∀ acc ∈ [nestedLoad], acc.ptr.WellFormed := by decide +kernel

theorem nestedLoad_run : ∃ a,
    (ofAccesses ⟨64, false⟩ .declarations none ([nestedLoad].map .ok)).outcome = .ok a ∧
      (a.registry.arrays.map fun shape => (shape.sized, shape.dims)) =
        [(true, [.unknown, ⟨counter outermost, false⟩])] :=
  map_eq_ok.mp (by decide +kernel)

/-- The loop of the size is that of the step, which the search takes whole. -/
theorem loops_of_size_nested : (∀ acc ∈ [nestedLoad], acc.ptr.WellFormed) ∧
    ∃ (a : Analysis) (c : Collection),
      (ofAccesses ⟨64, false⟩ .declarations none ([nestedLoad].map .ok)).outcome = .ok a ∧
      (a.registry.arrays.map fun shape => (shape.sized, shape.dims)) =
        [(true, [.unknown, ⟨counter outermost, false⟩])] ∧
      ∀ shape ∈ a.registry.arrays, ∃ raw, c.registry.find? shape.base = some raw ∧
        ∀ (d : Nat) dim, shape.dims[d]? = some dim → ∀ l ∈ dim.size.loops,
          SoughtLoop raw.validElements d l := by
  have source : HintSource.declarations.hint = .ok Pointer.declaredSizes := rfl
  have pos : (0 : Int) < (none : Option Int).getD (Settings.mk 64 false).indexWidth := by decide
  obtain ⟨a, run, arrays⟩ := nestedLoad_run
  obtain ⟨c, -, each⟩ := loops_of_size source pos nestedLoad_wellFormed run
  exact ⟨nestedLoad_wellFormed, a, c, run, arrays, each⟩

/-- A sized array may have a size that depends on a loop. -/
theorem size_of_nested_moves : (∀ acc ∈ [nestedLoad], acc.ptr.WellFormed) ∧
    ∃ a, (ofAccesses ⟨64, false⟩ .declarations none ([nestedLoad].map .ok)).outcome = .ok a ∧
      ∃ shape ∈ a.registry.arrays, shape.sized = true ∧
        ∃ dim ∈ shape.dims, dim.size ≠ .uncomputable ∧ dim.size.loops ≠ [] := by
  obtain ⟨a, run, arrays⟩ := nestedLoad_run
  obtain ⟨shape, only, here⟩ := List.map_eq_singleton_iff.mp arrays
  obtain ⟨sized, dims⟩ := Prod.mk.inj here
  refine ⟨nestedLoad_wellFormed, a, run, shape, by simp [only], sized, ⟨counter outermost, false⟩, ?_⟩
  exact ⟨by simp [dims], by simp [counter], by simp [counter, loops]⟩

end ShapeRecovery.Analysis
