import ShapeRecovery.Proofs.Expr.LinearForm
import ShapeRecovery.Shape.Summary

namespace ShapeRecovery

open ShapeRecovery.Expr

/-- The pointer and the subscripts are well formed. -/
structure Element.WellFormed (el : Element) : Prop where
  ptr : el.ptr.WellFormed
  subscripts : ∀ s ∈ el.subscripts, s.WellFormed

instance (el : Element) : Decidable el.WellFormed :=
  decidable_of_iff (el.ptr.WellFormed ∧ ∀ s ∈ el.subscripts, s.WellFormed)
    ⟨fun fit => ⟨fit.1, fit.2⟩, fun fit => ⟨fit.ptr, fit.subscripts⟩⟩

/-- The object, the sizes and the accesses are well formed. -/
structure ArrayShape.WellFormed (shape : ArrayShape) : Prop where
  base : shape.base.WellFormed
  sizes : ∀ e ∈ shape.sizes, e.WellFormed
  elements : ∀ el ∈ shape.elements, el.WellFormed

instance (shape : ArrayShape) : Decidable shape.WellFormed :=
  decidable_of_iff (shape.base.WellFormed ∧ (∀ e ∈ shape.sizes, e.WellFormed) ∧
      ∀ el ∈ shape.elements, el.WellFormed)
    ⟨fun fit => ⟨fit.1, fit.2.1, fit.2.2⟩, fun fit => ⟨fit.base, fit.sizes, fit.elements⟩⟩

namespace Registry

variable {iw : Int}

private theorem subscriptLines_total (pos : 0 < iw) {sub : Expr} (fit : sub.WellFormed) :
    ∃ ls, subscriptLines iw sub = .ok ls := by
  obtain ⟨form, hform, fitA, fitB⟩ := linearParts_total pos fit
  obtain ⟨s, hs⟩ := fit.text
  obtain ⟨a, ha⟩ := fitA.text
  obtain ⟨b, hb⟩ := fitB.text
  exact ⟨_, by simp only [subscriptLines, hform, hs, ha, hb, ok_bind]; rfl⟩

private theorem elementLines_total (pos : 0 < iw) {el : Element} (fit : el.WellFormed) :
    ∃ ls, elementLines iw el = .ok ls := by
  obtain ⟨p, hp⟩ := fit.ptr.text
  obtain ⟨subs, hsubs⟩ := mapM_total fun s hs => subscriptLines_total pos (fit.subscripts s hs)
  exact ⟨_, by simp only [elementLines, hp, hsubs, ok_bind]; rfl⟩

private theorem sizeLines_total (d : Nat) {sizes : List Expr} (fit : ∀ e ∈ sizes, e.WellFormed) :
    ∃ ls, sizeLines d sizes = .ok ls := by
  induction sizes generalizing d with
  | nil => exact ⟨[], rfl⟩
  | cons size rest ih =>
    obtain ⟨t, ht⟩ := (fit size (by simp)).text
    obtain ⟨ls, hls⟩ := ih (d + 1) fun e he => fit e (by simp [he])
    exact ⟨_, by simp only [sizeLines, ht, hls, ok_bind]; rfl⟩

theorem arrayLines_total (pos : 0 < iw) {shape : ArrayShape} (fit : shape.WellFormed) :
    ∃ ls, arrayLines iw shape = .ok ls := by
  obtain ⟨b, hb⟩ := fit.base.text
  obtain ⟨sizes, hsizes⟩ := sizeLines_total 0 fit.sizes
  obtain ⟨lines, hlines⟩ := mapM_total fun el hel => elementLines_total pos (fit.elements el hel)
  exact ⟨_, by simp only [arrayLines, hb, hsizes, hlines, ok_bind]; rfl⟩

end Registry

end ShapeRecovery
