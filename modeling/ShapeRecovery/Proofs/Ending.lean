import ShapeRecovery.Proofs.Outcome

namespace ShapeRecovery

variable {α β σ : Type} {allowed : Fault → Prop}

/-- `x` has a result that satisfies `P`, or is refused for a cause that is allowed. -/
def Ends (allowed : Fault → Prop) (x : Except Fault α) (P : α → Prop) : Prop :=
  (∃ e, x = .error e ∧ allowed e) ∨ ∃ a, x = .ok a ∧ P a

namespace Ends

variable {x : Except Fault α} {f : α → Except Fault β} {P Q : α → Prop} {R : β → Prop}

theorem ok {a : α} (h : P a) : Ends allowed (.ok a) P := .inr ⟨a, rfl, h⟩

theorem error {e : Fault} (h : allowed e) : Ends allowed (.error e) P := .inl ⟨e, rfl, h⟩

theorem of_total (h : ∃ a, x = .ok a ∧ P a) : Ends allowed x P := .inr h

theorem mono (ends : Ends allowed x P) (weaker : ∀ a, P a → Q a) : Ends allowed x Q := by
  rcases ends with refused | ⟨a, run, h⟩
  · exact .inl refused
  · exact .inr ⟨a, run, weaker a h⟩

theorem bind (first : Ends allowed x P) (next : ∀ a, P a → Ends allowed (f a) R) :
    Ends allowed (x >>= f) R := by
  rcases first with ⟨e, refused, cause⟩ | ⟨a, run, h⟩
  · rw [refused]
    exact .error cause
  · rw [run]
    exact next a h

/-- What holds of every result of a run holds of the one that it ends in. -/
theorem of_run (ends : Ends allowed x P) {a : α} (run : x = .ok a) : P a := by
  rcases ends with ⟨e, refused, -⟩ | ⟨b, run', h⟩
  · rw [refused] at run
    cases run
  · rw [run] at run'
    cases run'
    exact h

/-- Where no refusal is allowed there is a result. -/
theorem total (ends : Ends allowed x P) (none : ∀ e, ¬ allowed e) : ∃ a, x = .ok a ∧ P a := by
  rcases ends with ⟨e, -, cause⟩ | result
  · exact absurd cause (none e)
  · exact result

/-- Steps that each come to an end do so one after the other. -/
theorem mapM {R : α → β → Prop} {xs : List α} (each : ∀ x ∈ xs, Ends allowed (f x) (R x)) :
    Ends allowed (xs.mapM f) (List.Forall₂ R xs) := by
  induction xs with
  | nil => exact .ok .nil
  | cons x xs ih =>
    rw [List.mapM_cons]
    refine (each x (by simp)).bind fun y here => ?_
    refine (ih fun z hz => each z (by simp [hz])).bind fun ys rest => ?_
    exact .ok (.cons here rest)

end Ends

namespace Tracked

/-- As `Ends`, for a step on the state `s`; `P` speaks of the result and of the state it leaves. -/
def EndsFrom (allowed : Fault → Prop) (x : Tracked σ α) (s : σ) (P : α → σ → Prop) : Prop :=
  (∃ e, (outcome x s).1 = .error e ∧ allowed e) ∨ ∃ a t, outcome x s = (.ok a, t) ∧ P a t

namespace EndsFrom

variable {x : Tracked σ α} {f : α → Tracked σ β} {s : σ} {P Q : α → σ → Prop} {R : β → σ → Prop}

theorem of_pure {a : α} (h : P a s) : EndsFrom allowed (pure a : Tracked σ α) s P :=
  .inr ⟨a, s, rfl, h⟩

theorem mono (ends : EndsFrom allowed x s P) (weaker : ∀ a t, P a t → Q a t) :
    EndsFrom allowed x s Q := by
  rcases ends with refused | ⟨a, t, run, h⟩
  · exact .inl refused
  · exact .inr ⟨a, t, run, weaker a t h⟩

theorem of_modify {g : σ → σ} {P : Unit → σ → Prop} (h : P () (g s)) :
    EndsFrom allowed (modify g : Tracked σ Unit) s P :=
  .inr ⟨(), g s, rfl, h⟩

theorem of_say {c : Channel} {t : String} {P : Unit → σ → Prop} (h : P () s) :
    EndsFrom allowed (Tracked.say c t) s P :=
  .inr ⟨(), s, rfl, h⟩

theorem bind (first : EndsFrom allowed x s P) (next : ∀ a t, P a t → EndsFrom allowed (f a) t R) :
    EndsFrom allowed (x >>= f) s R := by
  unfold EndsFrom
  rw [outcome_bind]
  rcases first with ⟨e, refused, cause⟩ | ⟨a, t, run, h⟩
  · generalize outcome x s = result at refused
    obtain ⟨e' | a, t⟩ := result
    · exact .inl ⟨e', rfl, by cases refused; exact cause⟩
    · cases refused
  · rw [run]
    exact next a t h

theorem say_bind {c : Channel} {t : String} {f : Unit → Tracked σ β} (next : EndsFrom allowed (f ()) s R) :
    EndsFrom allowed (Tracked.say c t >>= f) s R := by
  unfold EndsFrom
  rw [Tracked.say_bind]
  exact next

theorem get_bind {f : σ → Tracked σ β} (next : EndsFrom allowed (f s) s R) :
    EndsFrom allowed (get >>= f) s R := by
  unfold EndsFrom
  rw [Tracked.get_bind]
  exact next

theorem modify_bind {g : σ → σ} {f : Unit → Tracked σ β} (next : EndsFrom allowed (f ()) (g s) R) :
    EndsFrom allowed (modify g >>= f) s R := by
  unfold EndsFrom
  rw [Tracked.modify_bind]
  exact next

theorem lift_bind {y : Traced α} {T : α → Prop} (first : Ends allowed y.outcome T)
    (next : ∀ a, T a → EndsFrom allowed (f a) s R) :
    EndsFrom allowed ((liftM y : Tracked σ α) >>= f) s R := by
  refine bind (P := fun a t => T a ∧ t = s) ?_ ?_
  · rcases first with ⟨e, refused, cause⟩ | ⟨a, run, h⟩
    · exact .inl ⟨e, refused, cause⟩
    · exact .inr ⟨a, s, by rw [outcome_lift, run], h, rfl⟩
  · rintro a t ⟨h, rfl⟩
    exact next a h

theorem liftExcept_bind {y : Except Fault α} {T : α → Prop} (first : ∃ a, y = .ok a ∧ T a)
    (next : ∀ a, T a → EndsFrom allowed (f a) s R) :
    EndsFrom allowed ((liftM y : Tracked σ α) >>= f) s R :=
  lift_bind (y := Traced.ofExcept y) (.of_total first) next

end EndsFrom

/-- A step whose final state is kept. -/
theorem EndsFrom.finalState {x : Tracked σ Unit} {s : σ} {P : σ → Prop}
    (ends : EndsFrom allowed x s fun _ => P) : Ends allowed (finalState x s).outcome P := by
  rw [outcome_finalState]
  rcases ends with ⟨e, refused, cause⟩ | ⟨a, t, run, h⟩
  · rw [refused]
    exact .error cause
  · rw [run]
    exact .inr ⟨t, rfl, h⟩

end Tracked

end ShapeRecovery
