import ShapeRecovery.Proofs.Outcome
import ShapeRecovery.Shape.Analysis

namespace ShapeRecovery

namespace Tracked

variable {σ α β γ : Type} {view : σ → γ} {x : Tracked σ α} {f : α → Tracked σ β}

/-- The state that `x` leaves looks as it did before. -/
structure Keeps (view : σ → γ) (x : Tracked σ α) : Prop where
  same : ∀ s, view (outcome x s).2 = view s

namespace Keeps

theorem pure (a : α) : Keeps view (Pure.pure a : Tracked σ α) := ⟨fun _ => rfl⟩

theorem throw (e : Fault) : Keeps view (MonadExcept.throw e : Tracked σ α) := ⟨fun _ => rfl⟩

theorem get : Keeps view (MonadState.get : Tracked σ σ) := ⟨fun _ => rfl⟩

theorem lift (x : Traced α) : Keeps view (liftM x : Tracked σ α) := ⟨fun _ => rfl⟩

theorem liftExcept (x : Except Fault α) : Keeps view (liftM x : Tracked σ α) := ⟨fun _ => rfl⟩

theorem say (c : Channel) (t : String) : Keeps view (Tracked.say c t : Tracked σ Unit) :=
  ⟨fun _ => rfl⟩

theorem modify {g : σ → σ} (same : ∀ s, view (g s) = view s) :
    Keeps view (modify g : Tracked σ Unit) := ⟨same⟩

theorem bind (first : Keeps view x) (next : ∀ a, Keeps view (f a)) : Keeps view (x >>= f) := by
  refine ⟨fun s => ?_⟩
  have one := first.same s
  rw [outcome_bind]
  generalize outcome x s = result at one
  obtain ⟨e | a, t⟩ := result
  · exact one
  · exact ((next a).same t).trans one

end Keeps

end Tracked

namespace ArrayShape

open Tracked

/-- The object and its accesses. -/
def accesses (shape : ArrayShape) : Pointer × List Element :=
  (shape.base, shape.elements)

/-- The object and its dimensions. -/
def layout (shape : ArrayShape) : Pointer × List Dimension × Bool × Bool :=
  (shape.base, shape.dims, shape.sized, shape.subscripted)

section sizes

variable {γ : Type} {view : ArrayShape → γ}

theorem setHinted_keeps (width : Int) (d : Nat) (size : Int)
    (same : ∀ shape e, view (shape.setSize d e true) = view shape) :
    Keeps view (setHinted width d size) :=
  .bind (.liftExcept _) fun e => .modify fun shape => same shape e

theorem setTrailing_keeps (width : Int) (hint : List Int) (d : Nat)
    (same : ∀ shape i e hinted, view (setSize shape i e hinted) = view shape) :
    Keeps view (setTrailing width hint d) := by
  induction d with
  | zero => exact .pure _
  | succ d ih =>
    unfold setTrailing
    split
    · exact .bind (setHinted_keeps _ _ _ fun shape e => same shape d e true) fun _ => ih
    · exact .pure _

theorem leaveOpen_keeps (width : Int) (hint : List Int) (count d : Nat)
    (same : ∀ shape i e hinted, i < d + count → view (setSize shape i e hinted) = view shape) :
    Keeps view (leaveOpen width hint count d) := by
  induction count generalizing d with
  | zero => exact .pure _
  | succ count ih =>
    have rest := ih (d + 1) fun shape i e hinted below => same shape i e hinted (by omega)
    unfold leaveOpen
    split
    · exact .bind (setHinted_keeps _ _ _ fun shape e => same shape d e true (by omega)) fun _ => rest
    · exact .bind (.modify fun shape => same shape d _ _ (by omega)) fun _ => rest

theorem findSizesFrom_keeps (settings : Settings) (width : Int) (hint : List Int) (d : Nat)
    (inner : Expr)
    (sizes : ∀ shape i e hinted, i ≤ d → view (setSize shape i e hinted) = view shape)
    (mark : ∀ shape, view (markSized shape) = view shape) :
    Keeps view (findSizesFrom settings width hint d inner) := by
  induction d generalizing inner with
  | zero => exact .modify mark
  | succ d ih =>
    have inside := fun inner => ih inner fun shape i e hinted below =>
      sizes shape i e hinted (by omega)
    have here {e : Expr} {hinted : Bool} (shape : ArrayShape) :
        view (shape.setSize (d + 1) e hinted) = view shape :=
      sizes shape (d + 1) e hinted (Nat.le_refl _)
    have rest (size : Expr) : Keeps view (do
        if size.isZero || size = .uncomputable then
          say s!"could not compute size of dimension {d + 1}"
          modify fun shape => shape.setSize (d + 1) .uncomputable false
          leaveOpen width hint d 1
        else
          modify fun shape => shape.setSize (d + 1) size (knownHint? hint (d + 1)).isSome
          let t ← size.text
          say s!"dimension size is {t}"
          let factor ← Expr.resize width size
          let inner ← Expr.productOf settings.indexWidth [inner, factor]
          findSizesFrom settings width hint d inner) := by
      split
      · refine .bind (.say ..) fun _ => .bind (.modify here) fun _ => ?_
        exact leaveOpen_keeps _ _ _ _ fun shape i e hinted below => sizes shape i e hinted (by omega)
      · exact .bind (.modify here) fun _ => .bind (.liftExcept _) fun _ => .bind (.say ..) fun _ =>
          .bind (.liftExcept _) fun _ => .bind (.liftExcept _) fun _ => inside _
    unfold findSizesFrom
    refine .bind (.say ..) fun _ => ?_
    dsimp only
    split
    · exact .bind (.liftExcept _) rest
    · exact .bind .get fun _ => .bind (.lift _) rest

end sizes

theorem findInnerSizes_keeps (settings : Settings) (width : Int) (hint : List Int) (last : Nat) :
    Keeps accesses (findInnerSizes settings width hint last) :=
  .bind (.say ..) fun _ => .bind (.liftExcept _) fun _ =>
    findSizesFrom_keeps _ _ _ _ _ (fun _ _ _ _ _ => rfl) fun _ => rfl

/-- Inferring sizes leaves the object and its accesses alone. -/
theorem findSizes_keeps (settings : Settings) (width : Int) (hint : List Int) :
    Keeps accesses (findSizes settings width hint) := by
  refine .bind .get fun shape => .bind (.liftExcept _) fun name => .bind (.say ..) fun _ => ?_
  dsimp only
  split
  · refine .bind (.lift _) fun n => ?_
    split
    · exact .say ..
    · exact .bind (.modify fun _ => rfl) fun _ => .bind (.say ..) fun _ => findInnerSizes_keeps ..
  · split
    · exact .throw _
    · refine .bind (setTrailing_keeps _ _ _ fun _ _ _ _ => rfl) fun left => ?_
      split
      · exact .bind (.say ..) fun _ => .modify fun _ => rfl
      · split
        · exact .bind (setHinted_keeps _ _ _ fun _ _ => rfl) fun _ => findInnerSizes_keeps ..
        · exact findInnerSizes_keeps ..

private theorem updateElements_keeps (f : Element → Traced Element) (done todo : List Element) :
    Keeps layout (updateElements f done todo) := by
  induction todo generalizing done with
  | nil => exact .pure _
  | cons el rest ih =>
    exact .bind (.lift _) fun _ => .bind (.modify fun _ => rfl) fun _ => ih _

private theorem normalizeFrom_keeps (iw width : Int) (n k : Nat) (inner : Expr) :
    Keeps layout (normalizeFrom iw width n k inner) := by
  induction k generalizing inner with
  | zero => exact .pure _
  | succ k ih =>
    refine .bind .get fun shape => ?_
    dsimp only
    split
    · exact .bind (.liftExcept _) fun _ => .bind (.liftExcept _) fun _ =>
        .bind (updateElements_keeps ..) fun _ => ih _
    · exact .bind (.liftExcept _) fun _ => .say ..

/-- Making subscripts those of the dimensions leaves the object and the dimensions alone. -/
theorem normalize_keeps (settings : Settings) (width : Int) :
    Keeps layout (normalize settings width) := by
  refine .bind .get fun shape => ?_
  dsimp only
  split
  · exact .throw _
  · refine .bind (.liftExcept _) fun _ => .bind (.say ..) fun _ => ?_
    split
    · exact .throw _
    · exact .bind (.liftExcept _) fun _ => normalizeFrom_keeps ..

end ArrayShape

/-- `el` is the access `raw`, perhaps with other subscripts, or given up. -/
structure Element.Revises (raw el : Element) : Prop where
  ptr : el.ptr = raw.ptr
  isElement : el.isElement = raw.isElement
  length : el.subscripts.length = raw.subscripts.length
  isValid : el.isValid = true → raw.isValid = true

namespace Element.Revises

theorem refl (el : Element) : Revises el el := ⟨rfl, rfl, rfl, id⟩

theorem trans {raw mid el : Element} (first : Revises raw mid) (next : Revises mid el) :
    Revises raw el where
  ptr := next.ptr.trans first.ptr
  isElement := next.isElement.trans first.isElement
  length := next.length.trans first.length
  isValid := fun h => first.isValid (next.isValid h)

theorem all_refl (els : List Element) : List.Forall₂ Revises els els :=
  List.forall₂_same.mpr fun el _ => refl el

theorem all_trans {raws mids els : List Element} (first : List.Forall₂ Revises raws mids)
    (next : List.Forall₂ Revises mids els) : List.Forall₂ Revises raws els := by
  induction first generalizing els with
  | nil => exact next
  | cons here _ ih =>
    obtain ⟨el, rest, step, others, rfl⟩ := List.forall₂_cons_left_iff.mp next
    exact .cons (here.trans step) (ih others)

end Element.Revises

namespace ArrayShape

open Tracked

theorem normalizeElement_revises {iw : Int} {n k : Nat} {inner : Expr} {el el' : Element}
    (run : (normalizeElement iw n k inner el).outcome = .ok el') : el.Revises el' := by
  unfold normalizeElement at run
  split at run
  · injection run with run
    exact run ▸ .refl el
  · next ready =>
    have valid : el.isValid = true := by
      by_contra invalid
      simp [invalid] at ready
    simp only [Traced.outcome_bind, Traced.outcome_lift, Traced.outcome_say, ok_bind] at run
    obtain ⟨sub, -, run⟩ := bind_eq_ok.mp run
    obtain ⟨⟨q, r⟩, -, run⟩ := bind_eq_ok.mp run
    obtain ⟨-, -, run⟩ := bind_eq_ok.mp run
    obtain ⟨-, -, run⟩ := bind_eq_ok.mp run
    obtain ⟨-, -, run⟩ := bind_eq_ok.mp run
    obtain ⟨-, -, run⟩ := bind_eq_ok.mp run
    split at run <;> injection run with run <;> subst run
    · exact ⟨rfl, rfl, List.length_set, id⟩
    · exact ⟨rfl, rfl, rfl, fun h => by simp at h⟩

private theorem updateElements_revises {f : Element → Traced Element}
    (step : ∀ el el', (f el).outcome = .ok el' → el.Revises el') (done todo : List Element)
    (shape : ArrayShape) (here : shape.elements = done ++ todo) :
    List.Forall₂ Element.Revises shape.elements
      (outcome (updateElements f done todo) shape).2.elements := by
  induction todo generalizing done shape with
  | nil => exact Element.Revises.all_refl _
  | cons el rest ih =>
    simp only [updateElements, outcome_bind, outcome_lift]
    cases run : (f el).outcome with
    | error e => exact Element.Revises.all_refl _
    | ok el' =>
      simp only [outcome_modify]
      refine Element.Revises.all_trans ?_
        (ih (done ++ [el']) { shape with elements := done ++ el' :: rest } (by simp))
      rw [here]
      exact List.rel_append (Element.Revises.all_refl done)
        (.cons (step el el' run) (Element.Revises.all_refl rest))

private theorem normalizeFrom_revises (iw width : Int) (n k : Nat) (inner : Expr) (shape : ArrayShape) :
    List.Forall₂ Element.Revises shape.elements
      (outcome (normalizeFrom iw width n k inner) shape).2.elements := by
  induction k generalizing inner shape with
  | zero => exact Element.Revises.all_refl _
  | succ k ih =>
    simp only [normalizeFrom, outcome_bind, outcome_get]
    split
    · simp only [outcome_bind, outcome_lift_except]
      cases Expr.resize width _ with
      | error e => exact Element.Revises.all_refl _
      | ok factor =>
        dsimp only
        cases Expr.productOf iw [inner, factor] with
        | error e => exact Element.Revises.all_refl _
        | ok inner' =>
          dsimp only
          have first := updateElements_revises
            (fun el el' run => @normalizeElement_revises iw n k inner' el el' run) [] shape.elements
            shape rfl
          generalize outcome (updateElements _ [] shape.elements) shape = result at first ⊢
          obtain ⟨_ | _, next⟩ := result
          · exact first
          · exact Element.Revises.all_trans first (ih inner' next)
    · simp only [outcome_bind, outcome_lift_except]
      cases Expr.text _ <;> exact Element.Revises.all_refl _

/-- Making subscripts those of the dimensions keeps the accesses. -/
theorem normalize_revises (settings : Settings) (width : Int) (shape : ArrayShape) :
    List.Forall₂ Element.Revises shape.elements
      (outcome (normalize settings width) shape).2.elements := by
  simp only [normalize, outcome_bind, outcome_get]
  split
  · exact Element.Revises.all_refl _
  · simp only [outcome_bind, outcome_lift_except]
    cases shape.base.label with
    | error e => exact Element.Revises.all_refl _
    | ok name =>
      simp only [outcome_say]
      split
      · exact Element.Revises.all_refl _
      · simp only [outcome_bind, outcome_lift_except]
        cases Expr.one width with
        | error e => exact Element.Revises.all_refl _
        | ok one => exact normalizeFrom_revises ..

end ArrayShape

end ShapeRecovery
