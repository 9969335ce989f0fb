import ShapeRecovery.Proofs.Schema.Keys

namespace ShapeRecovery.Schema

/-- What a value for a field is where it passes the checks. -/
def Field.Passes {ν : Type} (k : Checks ν) (f : Field) (v : Value ν) : Prop :=
  match f.arity with
  | .one => k.accepts f.type v = .ok true
  | .optional => (k.data v).isNone = true ∨ k.accepts f.type v = .ok true
  | .many => k.isList v = .ok true ∧
      ∃ items, (k.data v).items? = some items ∧ ∀ x ∈ items, k.accepts f.type x = .ok true

/-- A field of the class has a name that the checks of the class go by. They call `type` and look at `list`
for fields that hold many values only. -/
def NodeClass.hidesChecks (c : NodeClass) : Bool :=
  c.fields.any fun f => f.name = "CHK" ||
    (f.name = "type" || f.name = "list") && c.fields.any fun g => g.arity = .many

variable {ν : Type} {k : Checks ν} {f : Field} {fs : List Field} {u : Value ν} {us : List (Value ν)}
  {shown : String} {position : Nat} {s : Store} {c : NodeClass} {v : Content} {values : List Content}

section passing

theorem checkOne_eq_ok_iff :
    f.checkOne k shown position u = .ok () ↔ k.accepts f.type u = .ok true := by
  unfold Field.checkOne
  rw [bind_eq_ok]
  constructor
  · rintro ⟨accepted, typed, run⟩
    cases accepted with
    | true => exact typed
    | false => cases run
  · intro typed
    exact ⟨true, typed, rfl⟩

theorem forM_checkOne_eq_ok_iff : us.forM (f.checkOne k shown position) = .ok () ↔
    ∀ x ∈ us, k.accepts f.type x = .ok true := by
  induction us with
  | nil => exact iff_of_true rfl (by simp)
  | cons u us ih =>
    have turn : (u :: us).forM (f.checkOne k shown position) =
        f.checkOne k shown position u >>= fun _ => us.forM (f.checkOne k shown position) := rfl
    rw [turn, bind_eq_ok, List.forall_mem_cons, ← ih, ← checkOne_eq_ok_iff]
    exact ⟨fun ⟨_, first, rest⟩ => ⟨first, rest⟩, fun ⟨first, rest⟩ => ⟨(), first, rest⟩⟩

theorem check_eq_ok_iff : f.check k shown position u = .ok () ↔ f.Passes k u := by
  unfold Field.check Field.Passes
  cases f.arity with
  | one => exact checkOne_eq_ok_iff
  | optional =>
    dsimp only
    split
    · next none => simp [none]
    · next some => simp [some, checkOne_eq_ok_iff]
  | many =>
    dsimp only
    rw [bind_eq_ok]
    constructor
    · rintro ⟨listed, list, run⟩
      cases listed with
      | false => cases run
      | true =>
        simp only [Bool.not_true, Bool.false_eq_true, if_false] at run
        split at run
        · next items held => exact ⟨list, items, held, forM_checkOne_eq_ok_iff.mp run⟩
        · cases run
    · rintro ⟨list, items, held, each⟩
      refine ⟨true, list, ?_⟩
      simp only [held]
      exact forM_checkOne_eq_ok_iff.mpr each

/-- Values pass the checks of their class if each of them passes that of its field. -/
theorem checkFrom_eq_ok_iff {shown : String → String} :
    NodeClass.checkFrom k shown position fs us = .ok () ↔ List.Forall₂ (Field.Passes k) fs us := by
  induction fs generalizing us position with
  | nil =>
    cases us with
    | nil => exact iff_of_true rfl .nil
    | cons u us => exact iff_of_false (by simp [NodeClass.checkFrom]) (by simp)
  | cons f fs ih =>
    cases us with
    | nil => exact iff_of_false (by simp [NodeClass.checkFrom]) (by simp)
    | cons u us =>
      rw [NodeClass.checkFrom, bind_eq_ok, List.forall₂_cons, ← ih, ← check_eq_ok_iff]
      exact ⟨fun ⟨_, first, rest⟩ => ⟨first, rest⟩, fun ⟨first, rest⟩ => ⟨(), first, rest⟩⟩

end passing

section hidden

theorem argument?_eq_none {name : String} (other : ∀ f ∈ c.fields, f.name ≠ name) :
    Store.argument? c values name = none := by
  unfold Store.argument?
  rw [Option.map_eq_none_iff, List.find?_eq_none]
  intro entry mem
  simpa using other entry.1 (List.of_mem_zip mem).1

/-- Where no field hides what checks go by, the checks are those that the grammar asks for. -/
theorem passes_beside_iff (plain : c.hidesChecks = false) (mem : f ∈ c.fields) :
    f.Passes (s.checksBeside c values) v ↔ f.Passes s.checks v := by
  simp only [NodeClass.hidesChecks, List.any_eq_false, Bool.or_eq_true, Bool.and_eq_true,
    decide_eq_true_eq, List.any_eq_true, not_or, not_and, not_exists] at plain
  have accepts : (s.checksBeside c values).accepts = s.checks.accepts := by
    funext type v
    have table : Store.argument? c values "CHK" = none :=
      argument?_eq_none fun f mem => (plain f mem).1
    simp only [Store.checksBeside, table, Store.checks]
  unfold Field.Passes
  rw [accepts]
  split
  · exact Iff.rfl
  · exact Iff.rfl
  · next several =>
    have free (name : String) (named : name = "type" ∨ name = "list") :
        Store.argument? c values name = none := by
      refine argument?_eq_none fun g memg same => (plain g memg).2 ?_ f mem several
      rwa [same]
    have lists : (s.checksBeside c values).isList v = s.checks.isList v := by
      simp only [Store.checksBeside, free "type" (.inl rfl), free "list" (.inr rfl), Store.checks, pure_eq_ok,
        ok_bind]
      cases (s.data v).isList <;> rfl
    rw [lists]
    exact Iff.rfl

end hidden

/-- A value that passes the check of a field is of the type of the field, whatever nodes there are. -/
theorem suitsField_of_passes (ordinary : s.model.Ordinary s.keyed f.type) (passes : f.Passes s.checks v) :
    SuitsField s.model s.things f v := by
  unfold Field.Passes at passes
  split at passes
  · next one => exact .one (by simp [one]) (suits_of_accepts ordinary passes)
  · next optional =>
    rcases passes with none | typed
    · refine .missing optional ?_
      change (Thing.read s.things v).isNone = true at none
      cases held : Thing.read s.things v with
      | none => rfl
      | _ =>
        rw [held] at none
        cases none
    · exact .one (by simp [optional]) (suits_of_accepts ordinary typed)
  · next several =>
    obtain ⟨list, items, found, each⟩ := passes
    change Except.ok (Thing.read s.things v).isList = .ok true at list
    change (Thing.read s.things v).items? = some items at found
    cases held : Thing.read s.things v with
    | list vs =>
      rw [held] at found
      cases found
      exact .many several held fun x hx => suits_of_accepts ordinary (each x hx)
    | _ =>
      rw [held] at list
      cases list

end ShapeRecovery.Schema
