import Mathlib.Data.List.Forall2
import ShapeRecovery.Trace

namespace ShapeRecovery

variable {α β : Type}

theorem bind_eq_ok {x : Except Fault α} {f : α → Except Fault β} {b : β} :
    (x >>= f) = .ok b ↔ ∃ a, x = .ok a ∧ f a = .ok b := by
  cases x with
  | error e => simp [bind, Except.bind]
  | ok a => simp [bind, Except.bind]

theorem map_eq_ok {x : Except Fault α} {f : α → β} {b : β} :
    x.map f = .ok b ↔ ∃ a, x = .ok a ∧ f a = b := by
  cases x <;> simp [Except.map]

theorem exists_of_isOk {x : Except Fault α} (ends : x.isOk = true) : ∃ a, x = .ok a := by
  cases x with
  | error e => cases ends
  | ok a => exact ⟨a, rfl⟩

/-- A step that has a result hands it to the next one. -/
@[simp] theorem ok_bind (a : α) (f : α → Except Fault β) :
    ((Except.ok a : Except Fault α) >>= f) = f a := rfl

/-- A step that is refused ends the run. -/
@[simp] theorem error_bind (e : Fault) (f : α → Except Fault β) :
    ((Except.error e : Except Fault α) >>= f) = .error e := rfl

@[simp] theorem pure_eq_ok (a : α) : (pure a : Except Fault α) = .ok a := rfl

theorem mapM_congr {f g : α → Except Fault β} {xs : List α} (h : ∀ x ∈ xs, f x = g x) :
    xs.mapM f = xs.mapM g := by
  induction xs with
  | nil => rfl
  | cons x xs ih =>
    rw [List.mapM_cons, List.mapM_cons, h x (by simp), ih fun y hy => h y (by simp [hy])]

/-- A list of steps that all have results has the list of results. -/
theorem mapM_ok {f : α → Except Fault β} {g : α → β} {xs : List α}
    (h : ∀ x ∈ xs, f x = .ok (g x)) : xs.mapM f = .ok (xs.map g) := by
  induction xs with
  | nil => rfl
  | cons x xs ih =>
    have hx := h x (by simp)
    have hxs := ih fun y hy => h y (by simp [hy])
    simp [List.mapM_cons, hx, hxs]

/-- A list of steps whose results are all related to what they start from. -/
theorem mapM_related {f : α → Except Fault β} {R : α → β → Prop} {xs : List α}
    (h : ∀ x ∈ xs, ∃ y, f x = .ok y ∧ R x y) :
    ∃ ys, xs.mapM f = .ok ys ∧ List.Forall₂ R xs ys := by
  induction xs with
  | nil => exact ⟨[], rfl, .nil⟩
  | cons x xs ih =>
    obtain ⟨y, hy, related⟩ := h x (by simp)
    obtain ⟨ys, hys, rest⟩ := ih fun z hz => h z (by simp [hz])
    exact ⟨y :: ys, by simp [List.mapM_cons, hy, hys], .cons related rest⟩

theorem exists_of_forall₂ {R : α → β → Prop} {xs : List α} {ys : List β}
    (each : List.Forall₂ R xs ys) {y : β} (mem : y ∈ ys) : ∃ x ∈ xs, R x y := by
  induction each with
  | nil => simp at mem
  | @cons x y' xs ys here _ ih =>
    rcases List.mem_cons.mp mem with rfl | mem
    · exact ⟨x, by simp, here⟩
    · obtain ⟨z, hz, related⟩ := ih mem
      exact ⟨z, by simp [hz], related⟩

/-- Steps on items that are each related to an item of another list. -/
theorem mapM_forall₂ {γ : Type} {f : β → Except Fault γ} {R : α → β → Prop} {S : α → γ → Prop}
    {xs : List α} {ys : List β} (each : List.Forall₂ R xs ys)
    (step : ∀ x ∈ xs, ∀ y, R x y → ∃ z, f y = .ok z ∧ S x z) :
    ∃ zs, ys.mapM f = .ok zs ∧ List.Forall₂ S xs zs := by
  induction each with
  | nil => exact ⟨[], rfl, .nil⟩
  | @cons x y xs ys first _ ih =>
    obtain ⟨z, run, here⟩ := step x (by simp) y first
    obtain ⟨zs, run', there⟩ := ih fun u hu => step u (by simp [hu])
    exact ⟨z :: zs, by simp [List.mapM_cons, run, run'], .cons here there⟩

/-- A list of steps whose results all satisfy `P` has a list of results that do. -/
theorem mapM_all {f : α → Except Fault β} {P : β → Prop} {xs : List α}
    (h : ∀ x ∈ xs, ∃ y, f x = .ok y ∧ P y) :
    ∃ ys, xs.mapM f = .ok ys ∧ ys.length = xs.length ∧ ∀ y ∈ ys, P y := by
  obtain ⟨ys, hys, related⟩ := mapM_related (R := fun _ y => P y) h
  refine ⟨ys, hys, related.length_eq.symm, fun y hy => ?_⟩
  obtain ⟨-, -, py⟩ := exists_of_forall₂ related hy
  exact py

/-- Steps that all have a result have a list of results. -/
theorem mapM_total {f : α → Except Fault β} {xs : List α} (h : ∀ x ∈ xs, ∃ y, f x = .ok y) :
    ∃ ys, xs.mapM f = .ok ys := by
  obtain ⟨ys, hys, -, -⟩ := mapM_all fun x hx => (h x hx).imp fun y hy => ⟨hy, trivial⟩
  exact ⟨ys, hys⟩

/-- A loop that only writes messages ends if every turn does. -/
theorem Traced.outcome_forM {f : α → Traced Unit} {xs : List α}
    (h : ∀ x ∈ xs, (f x).outcome = .ok ()) : (xs.forM f).outcome = .ok () := by
  induction xs with
  | nil => rfl
  | cons x xs ih =>
    have turn : (x :: xs).forM f = f x >>= fun _ => xs.forM f := rfl
    rw [turn, Traced.outcome_bind, h x (by simp), ok_bind, ih fun y hy => h y (by simp [hy])]

/-- A list of steps has the results of the steps. -/
theorem mapM_eq_ok_iff {f : α → Except Fault β} {xs : List α} {ys : List β} :
    xs.mapM f = .ok ys ↔ List.Forall₂ (fun x y => f x = .ok y) xs ys := by
  induction xs generalizing ys with
  | nil =>
    rw [List.forall₂_nil_left_iff, List.mapM_nil]
    exact ⟨fun h => by injection h with h; exact h.symm, fun h => by rw [h]; rfl⟩
  | cons x xs ih =>
    rw [List.forall₂_cons_left_iff, List.mapM_cons]
    constructor
    · intro h
      obtain ⟨y, hy, h⟩ := bind_eq_ok.mp h
      obtain ⟨zs, hzs, h⟩ := bind_eq_ok.mp h
      injection h with h
      exact ⟨y, zs, hy, ih.mp hzs, h.symm⟩
    · rintro ⟨y, zs, hy, hzs, rfl⟩
      simp [hy, ih.mpr hzs]

/-- What each step says of its result is said of all results. -/
theorem forall₂_of_mapM {f : α → Except Fault β} {R : α → β → Prop} {xs : List α} {ys : List β}
    (run : xs.mapM f = .ok ys) (each : ∀ x ∈ xs, ∀ {y}, f x = .ok y → R x y) : List.Forall₂ R xs ys := by
  have steps := mapM_eq_ok_iff.mp run
  clear run
  induction steps with
  | nil => exact .nil
  | cons here _ ih =>
    exact .cons (each _ List.mem_cons_self here) (ih fun x hx => each x (List.mem_cons_of_mem _ hx))

theorem exists_of_mapM {f : α → Except Fault β} {xs : List α} {ys : List β} (run : xs.mapM f = .ok ys)
    {x : α} (mem : x ∈ xs) : ∃ y ∈ ys, f x = .ok y :=
  exists_of_forall₂ (mapM_eq_ok_iff.mp run).flip mem

namespace Tracked

variable {σ : Type} {f : α → Tracked σ β} {s t u : σ} {a : α} {b : β} {e : Fault}

theorem bind_of_ok {x : Tracked σ α} (run : outcome x s = (.ok a, t)) :
    outcome (x >>= f) s = outcome (f a) t := by
  rw [outcome_bind, run]

theorem bind_of_error {x : Tracked σ α} (run : outcome x s = (.error e, t)) :
    outcome (x >>= f) s = (.error e, t) := by
  rw [outcome_bind, run]

theorem liftExcept_of_ok {x : Except Fault α} (run : x = .ok a) :
    outcome ((liftM x : Tracked σ α) >>= f) s = outcome (f a) s :=
  bind_of_ok (by rw [outcome_lift_except, run])

theorem liftExcept_of_error {x : Except Fault α} (run : x = .error e) :
    outcome ((liftM x : Tracked σ α) >>= f) s = (.error e, s) :=
  bind_of_error (by rw [outcome_lift_except, run])

theorem say_bind (c : Channel) (t : String) (f : Unit → Tracked σ β) (s : σ) :
    outcome (say c t >>= f) s = outcome (f ()) s := by
  rw [outcome_bind, outcome_say]

theorem get_bind (f : σ → Tracked σ β) (s : σ) : outcome (get >>= f) s = outcome (f s) s := by
  rw [outcome_bind, outcome_get]

theorem modify_bind (g : σ → σ) (f : Unit → Tracked σ β) (s : σ) :
    outcome (modify g >>= f) s = outcome (f ()) (g s) := by
  rw [outcome_bind, outcome_modify]

theorem lift_bind_run {x : Traced α} : outcome ((liftM x : Tracked σ α) >>= f) s = (.ok b, u) ↔
    ∃ a, x.outcome = .ok a ∧ outcome (f a) s = (.ok b, u) := by
  rw [outcome_bind, outcome_lift]
  cases x.outcome <;> simp

theorem liftExcept_bind_run {x : Except Fault α} :
    outcome ((liftM x : Tracked σ α) >>= f) s = (.ok b, u) ↔
      ∃ a, x = .ok a ∧ outcome (f a) s = (.ok b, u) :=
  lift_bind_run

end Tracked

end ShapeRecovery
