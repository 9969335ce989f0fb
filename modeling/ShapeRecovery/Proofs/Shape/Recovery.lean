import ShapeRecovery.Proofs.Shape.Normalized
import ShapeRecovery.Proofs.Shape.SizeSearch

namespace ShapeRecovery

open ShapeRecovery.Expr Tracked

namespace ArrayShape

variable {allowed : Fault → Prop} {settings : Settings} {P : Nat → Expr → Prop} {w : Int}
  {hint : List Int} {shape : ArrayShape} {n : Nat}

theorem Resolved.sizes_wellFormed (resolved : Resolved P w hint shape) :
    ∀ dim ∈ shape.dims, dim.size.WellFormed := by
  intro dim mem
  obtain ⟨i, here⟩ := List.getElem?_of_mem mem
  exact (resolved.fits i dim here).imp_right fun bears => bears.2

/-- The subscripts of a sized array are made those of its dimensions. -/
theorem normalize_ends (pos : 0 < w) (resolved : Resolved P w hint shape) (sized : shape.sized = true)
    (named : ∃ name, shape.base.label = .ok name)
    (fit : ∀ el ∈ shape.elements, ∀ s ∈ el.subscripts, s.WellFormed) :
    EndsFrom allowed (normalize settings w) shape fun _ t =>
      ∀ el ∈ t.elements, ∀ s ∈ el.subscripts, s.WellFormed := by
  obtain ⟨outer, computed⟩ := resolved.sized.mp sized
  have known : ∀ dim ∈ shape.dims.drop 1, dim.size ≠ uncomputable := by
    intro dim mem
    obtain ⟨i, inside, rfl⟩ := List.getElem_of_mem mem
    rw [List.getElem_drop]
    exact computed (1 + i) _ (List.getElem?_eq_getElem _) (Nat.le_add_right 1 i)
  obtain ⟨s, first⟩ := exists_firstHinted shape.dims
  obtain ⟨els, run, each⟩ := normalize_run settings pos sized named
    (fun dim mem => resolved.sizes_wellFormed dim (List.mem_of_mem_drop mem))
    (fun raw mem _ _ => fit raw mem) known first
  refine .inr ⟨(), _, run, fun el mem => ?_⟩
  obtain ⟨raw, before, done⟩ := exists_of_forall₂ each mem
  exact done.wellFormed pos (fit raw before)

end ArrayShape

namespace Analysis

open ArrayShape

variable {allowed : Fault → Prop} {settings : Settings} {P : Nat → Expr → Prop} {w : Int}
  {hint : List Int} {raw shape : ArrayShape}

/-- `shape` is what becomes of the array `raw`. -/
structure Recovered (P : Nat → Expr → Prop) (w : Int) (hint : List Int) (raw shape : ArrayShape) :
    Prop extends Found P w hint shape.validElements shape where
  untouched : shape.sized = false → shape.elements = raw.elements
  wellFormed : shape.WellFormed

/-- The accesses that were valid at first are those that still are, and others. -/
private theorem forall_validElements {n : Nat} {els els' : List Element}
    (revises : List.Forall₂ Element.Revises els els')
    (count : ∀ el ∈ els.filter fun el => el.isElement && el.isValid, el.subscripts.length = n) :
    ∀ el ∈ els'.filter fun el => el.isElement && el.isValid, el.subscripts.length = n := by
  intro el mem
  obtain ⟨mem, valid⟩ := List.mem_filter.mp mem
  obtain ⟨before, hbefore, here⟩ := exists_of_forall₂ revises mem
  simp only [Bool.and_eq_true] at valid
  rw [here.length]
  refine count before (List.mem_filter.mpr ⟨hbefore, ?_⟩)
  simp [← here.isElement, valid.1, here.isValid valid.2]

/-- Normalizing leaves a sized array as the search found it, but for the subscripts. -/
private theorem recovered_of_normalize {found done : ArrayShape} (fresh : Raw hint raw)
    (base : found.base = raw.base) (elements : found.elements = raw.elements)
    (search : Found P w hint raw.validElements found)
    (sized : found.sized = true) (run : (finalState (normalize settings w) found).outcome = .ok done)
    (subscripts : ∀ el ∈ done.elements, ∀ s ∈ el.subscripts, s.WellFormed) :
    Recovered P w hint raw done := by
  have layout := (normalize_keeps settings w).same found
  have revises := normalize_revises settings w found
  rw [← finalState_ok run] at layout revises
  rw [elements] at revises
  obtain ⟨base', dims, sized', -⟩ : done.base = found.base ∧ done.dims = found.dims ∧
      done.sized = found.sized ∧ done.subscripted = found.subscripted := by
    simpa [ArrayShape.layout] using layout
  have ptrs : ∀ el ∈ done.elements, el.ptr.WellFormed := by
    intro el mem
    obtain ⟨before, hbefore, here⟩ := exists_of_forall₂ revises mem
    exact here.ptr ▸ (fresh.elements before hbefore).ptr
  exact {
    fits := dims ▸ search.fits
    declared := dims ▸ search.declared
    sized := by rw [sized', dims]; exact search.sized
    untouched := fun unmarked => by simp [sized', sized] at unmarked
    length := dims ▸ search.length
    count := fun _ => dims ▸ forall_validElements revises (search.count sized)
    wellFormed := {
      base := by rw [base', base]; exact fresh.base
      sizes := List.forall_mem_map.mpr (dims ▸ search.sizes_wellFormed)
      elements := fun el mem => ⟨ptrs el mem, subscripts el mem⟩ } }

theorem recover_ends (searches : ∀ d, Searches allowed settings (P d)) (pos : 0 < w)
    (fresh : Raw hint raw) (rows : Searchable P raw.validElements) :
    Ends allowed (recover settings w hint raw).outcome (Recovered P w hint raw) := by
  have keeps := findSizes_keeps settings w hint
  have first := ((findSizes_ends searches pos fresh rows).keeps keeps).finalState
  simp only [recover, Traced.outcome_bind]
  apply first.bind
  rintro found ⟨search, same⟩
  obtain ⟨base, elements⟩ : found.base = raw.base ∧ found.elements = raw.elements := Prod.mk.inj same
  obtain ⟨text, readable⟩ := fresh.base.text
  have named := base ▸ Pointer.label_of_text readable
  cases sized : found.sized with
  | true =>
    have fit : ∀ el ∈ found.elements, ∀ s ∈ el.subscripts, s.WellFormed := fun el mem =>
      (fresh.elements el (elements ▸ mem)).subscripts
    have second : EndsFrom allowed (normalize settings w) found _ :=
      normalize_ends pos search.toResolved sized named fit
    rcases second.finalState with refused | ⟨done, run, subscripts⟩
    · exact .inl refused
    · simp only [if_true, run]
      exact .ok (recovered_of_normalize fresh base elements search sized run subscripts)
  | false =>
    obtain ⟨name, hname⟩ := named
    simp only [Bool.false_eq_true, if_false, Traced.outcome_bind, Traced.outcome_lift, hname, ok_bind,
      Traced.outcome_say, Traced.outcome_pure]
    have valid : found.validElements = raw.validElements := by
      rw [validElements, elements, validElements]
    refine .ok { toFound := valid ▸ search
                 untouched := fun _ => elements
                 wellFormed := ⟨base ▸ fresh.base, List.forall_mem_map.mpr search.sizes_wellFormed,
                   elements ▸ fresh.elements⟩ }

end Analysis

end ShapeRecovery
