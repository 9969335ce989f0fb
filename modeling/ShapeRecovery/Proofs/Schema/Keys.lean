import Mathlib.Data.List.Forall2
import ShapeRecovery.Proofs.Outcome
import ShapeRecovery.Schema.Store

namespace ShapeRecovery.Schema

/-- Values of the type are compared as things. -/
def Model.comparesThings (m : Model) (type : String) : Bool :=
  m.isType type || Builtin.ofName? type = some .object

/-- The type is one of the grammar, or a built-in one that nothing from outside stands in for. -/
def Model.Ordinary (m : Model) (keyed : List String) (type : String) : Prop :=
  m.isType type = true ∨
    (Builtin.ofName? type).isSome = true ∧ (∀ p ∈ m.predicates, p.1 ≠ type) ∧ type ∉ keyed

instance (m : Model) (keyed : List String) (type : String) : Decidable (m.Ordinary keyed type) :=
  inferInstanceAs (Decidable (_ ∨ _))

/-- Two values of a type are the same: they are one thing or, where the type is not compared by things, hold
the same data. -/
def SameOne (m : Model) (things : Array Thing) (type : String) (v v' : Content) : Prop :=
  if m.comparesThings type then v = v' else Thing.read things v = Thing.read things v'

/-- Two values of a field are the same. -/
inductive SameValue (m : Model) (things : Array Thing) (f : Field) : Content → Content → Prop
  | missing {v v' : Content} (optional : f.arity = .optional) (none : Thing.read things v = .none)
      (none' : Thing.read things v' = .none) : SameValue m things f v v'
  | one {v v' : Content} (single : f.arity ≠ .many) (same : SameOne m things f.type v v') :
      SameValue m things f v v'
  | many {v v' : Content} {vs vs' : List Content} (several : f.arity = .many)
      (held : Thing.read things v = .list vs) (held' : Thing.read things v' = .list vs')
      (each : List.Forall₂ (SameOne m things f.type) vs vs') : SameValue m things f v v'

/-- The values of all fields are the same. -/
inductive SameValues (m : Model) (things : Array Thing) : List Field → List Content → List Content → Prop
  | nil : SameValues m things [] [] []
  | cons {f : Field} {fs : List Field} {v v' : Content} {vs vs' : List Content}
      (here : SameValue m things f v v') (rest : SameValues m things fs vs vs') :
      SameValues m things (f :: fs) (v :: vs) (v' :: vs')

/-- Data that a built-in type other than that of objects accepts. -/
inductive Kind : Builtin → Content → Prop
  | text (s : String) : Kind .text (.text s)
  | int (n : Int) : Kind .int (.int n)
  | bool (b : Bool) : Kind .bool (.bool b)

/-- A value of a type is compared as a thing or holds data of one kind. -/
def Suits (m : Model) (things : Array Thing) (type : String) (v : Content) : Prop :=
  m.comparesThings type = true ∨ ∃ b, Builtin.ofName? type = some b ∧ Kind b (Thing.read things v)

/-- What is known of a value that passes the check of a field, whatever nodes there are. -/
inductive SuitsField (m : Model) (things : Array Thing) (f : Field) (v : Content) : Prop
  | missing (optional : f.arity = .optional) (none : Thing.read things v = .none)
  | one (single : f.arity ≠ .many) (suits : Suits m things f.type v)
  | many {vs : List Content} (several : f.arity = .many) (held : Thing.read things v = .list vs)
      (each : ∀ x ∈ vs, Suits m things f.type x)

variable {s : Store} {type : String} {v v' : Content} {vs vs' : List Content} {k k' : Key}
  {ks ks' : List Key} {f : Field} {fs : List Field} {fk fk' : FieldKey} {fks fks' : List FieldKey}

section one

theorem SameOne.refl (m : Model) (things : Array Thing) (type : String) (v : Content) :
    SameOne m things type v v := by
  unfold SameOne
  split <;> rfl

/-- How the values of a type are told apart. -/
theorem byIdentity_eq (ordinary : s.model.Ordinary s.keyed type) :
    s.byIdentity type = .ok (s.model.comparesThings type) := by
  unfold Store.byIdentity Model.comparesThings
  cases own : s.model.isType type with
  | true => rfl
  | false =>
    rcases ordinary with grammar | ⟨known, -, free⟩
    · rw [own] at grammar
      cases grammar
    · obtain ⟨b, known⟩ := Option.isSome_iff_exists.mp known
      simp [free, known]

theorem suits_of_accepts (ordinary : s.model.Ordinary s.keyed type) (typed : s.accepts type v = .ok true) :
    Suits s.model s.things type v := by
  unfold Suits
  cases own : s.model.isType type with
  | true => exact .inl (by simp [Model.comparesThings, own])
  | false =>
    rcases ordinary with grammar | ⟨known, others, -⟩
    · rw [own] at grammar
      cases grammar
    obtain ⟨b, known⟩ := Option.isSome_iff_exists.mp known
    have none : (s.model.predicates.find? fun p => p.1 = type) = none := by
      simpa using others
    have accepted : b.accepts (Thing.read s.things v) = true := by
      simpa [Store.accepts, Store.data, own, none, known] using typed
    cases b with
    | object => exact .inl (by simp [Model.comparesThings, known])
    | text =>
      refine .inr ⟨.text, known, ?_⟩
      cases held : Thing.read s.things v <;> simp [held, Builtin.accepts] at accepted
      exact .text _
    | int =>
      refine .inr ⟨.int, known, ?_⟩
      cases held : Thing.read s.things v <;> simp [held, Builtin.accepts] at accepted
      exact .int _
    | bool =>
      refine .inr ⟨.bool, known, ?_⟩
      cases held : Thing.read s.things v <;> simp [held, Builtin.accepts] at accepted
      exact .bool _

private theorem kind_eq_iff {b : Builtin} (kind : Kind b v) (kind' : Kind b v') :
    Key.ofEqual v = Key.ofEqual v' ↔ v = v' := by
  cases kind <;> cases kind'
  · simp [Key.ofEqual]
  · simp [Key.ofEqual]
  · next x y => cases x <;> cases y <;> simp [Key.ofEqual]

theorem keyOfOne_eq_iff (suits : Suits s.model s.things type v) (suits' : Suits s.model s.things type v')
    (run : s.keyOfOne (s.model.comparesThings type) v = .ok k)
    (run' : s.keyOfOne (s.model.comparesThings type) v' = .ok k') :
    k = k' ↔ SameOne s.model s.things type v v' := by
  unfold SameOne
  cases things : s.model.comparesThings type with
  | true =>
    rw [things] at run run'
    cases run
    cases run'
    simp
  | false =>
    rw [things] at run run'
    rcases suits with identity | ⟨b, known, kind⟩
    · rw [things] at identity
      cases identity
    rcases suits' with identity | ⟨b', known', kind'⟩
    · rw [things] at identity
      cases identity
    cases known.symm.trans known'
    have first : Key.ofEqual (Thing.read s.things v) = .ok k := run
    have second : Key.ofEqual (Thing.read s.things v') = .ok k' := run'
    have keys : k = k' ↔ Key.ofEqual (Thing.read s.things v) = Key.ofEqual (Thing.read s.things v') := by
      rw [first, second, Except.ok.injEq]
    rw [keys, kind_eq_iff kind kind']
    simp

theorem keyOfOne_ne_missing {identity : Bool} (run : s.keyOfOne identity v = .ok k) : k ≠ .missing := by
  have reduced (places : Nat) (m : Int) : Key.reduced places m ≠ .missing := by
    induction places generalizing m with
    | zero => simp [Key.reduced]
    | succ places ih =>
      unfold Key.reduced
      split
      · exact ih _
      · simp
  rintro rfl
  cases identity with
  | true => cases run
  | false =>
    have run : Key.ofEqual (s.data v) = .ok .missing := run
    generalize s.data v = held at run
    cases held with
    | decimal d =>
      have made : Key.ofDecimal d = .missing := Except.ok.inj run
      unfold Key.ofDecimal at made
      split at made
      · cases made
      · exact reduced _ _ made
    | _ => cases run

end one

section items

private theorem keysOfItems_eq_iff (each : ∀ x ∈ vs, Suits s.model s.things type x)
    (each' : ∀ x ∈ vs', Suits s.model s.things type x)
    (run : vs.mapM (s.keyOfOne (s.model.comparesThings type)) = .ok ks)
    (run' : vs'.mapM (s.keyOfOne (s.model.comparesThings type)) = .ok ks') :
    ks = ks' ↔ List.Forall₂ (SameOne s.model s.things type) vs vs' := by
  rw [mapM_eq_ok_iff] at run run'
  induction run generalizing vs' ks' with
  | nil => cases run' <;> simp
  | @cons v k vs ks here _ ih =>
    cases run' with
    | nil => simp
    | @cons v' k' vs' ks' here' rest' =>
      obtain ⟨suits, each⟩ := List.forall_mem_cons.mp each
      obtain ⟨suits', each'⟩ := List.forall_mem_cons.mp each'
      rw [List.cons.injEq, List.forall₂_cons, keyOfOne_eq_iff suits suits' here here',
        ih each each' rest']

end items

section fields

variable (ordinary : s.model.Ordinary s.keyed f.type)
include ordinary

/-- A list is known by the keys of its items. -/
theorem keyOf_many_run (several : f.arity = .many) (held : Thing.read s.things v = .list vs) :
    s.keyOf f v = .ok fk ↔
      ∃ ks, vs.mapM (s.keyOfOne (s.model.comparesThings f.type)) = .ok ks ∧ fk = .row ks := by
  unfold Store.keyOf
  simp only [byIdentity_eq ordinary, ok_bind, several, Store.data, held, Value.items?, pure_eq_ok]
  rw [bind_eq_ok]
  simp only [Except.ok.injEq, eq_comm]

theorem keyOf_missing (optional : f.arity = .optional) (none : Thing.read s.things v = .none) :
    s.keyOf f v = .ok (.one .missing) := by
  unfold Store.keyOf
  simp only [byIdentity_eq ordinary, ok_bind, optional, Store.data, none, Value.isNone, if_true, pure_eq_ok]

theorem keyOf_one_run (single : f.arity ≠ .many)
    (present : f.arity = .optional → Thing.read s.things v ≠ .none) :
    s.keyOf f v = .ok fk ↔
      ∃ k, s.keyOfOne (s.model.comparesThings f.type) v = .ok k ∧ fk = .one k := by
  have some : f.arity = .optional → (Thing.read s.things v).isNone = false := by
    intro optional
    have present := present optional
    cases held : Thing.read s.things v with
    | none => exact absurd held present
    | _ => rfl
  unfold Store.keyOf
  simp only [byIdentity_eq ordinary, ok_bind]
  cases arity : f.arity with
  | many => exact absurd arity single
  | optional =>
    simp only [Store.data, some arity, pure_eq_ok]
    exact bind_eq_ok.trans (by simp only [Except.ok.injEq, eq_comm])
  | one => exact bind_eq_ok.trans (by simp only [pure_eq_ok, Except.ok.injEq, eq_comm])

theorem keyOf_many_eq_iff (several : f.arity = .many) (suits : SuitsField s.model s.things f v)
    (suits' : SuitsField s.model s.things f v') (run : s.keyOf f v = .ok fk) (run' : s.keyOf f v' = .ok fk') :
    fk = fk' ↔ SameValue s.model s.things f v v' := by
  have list {v : Content} (suits : SuitsField s.model s.things f v) :
      ∃ vs, Thing.read s.things v = .list vs ∧ ∀ x ∈ vs, Suits s.model s.things f.type x := by
    cases suits with
    | missing optional _ => simp [several] at optional
    | one single _ => exact absurd several single
    | many _ held each => exact ⟨_, held, each⟩
  obtain ⟨vs, held, each⟩ := list suits
  obtain ⟨vs', held', each'⟩ := list suits'
  obtain ⟨ks, keys, rfl⟩ := (keyOf_many_run ordinary several held).mp run
  obtain ⟨ks', keys', rfl⟩ := (keyOf_many_run ordinary several held').mp run'
  rw [FieldKey.row.injEq, keysOfItems_eq_iff each each' keys keys']
  constructor
  · exact .many several held held'
  · intro same
    cases same with
    | missing optional _ _ => simp [several] at optional
    | one single _ => exact absurd several single
    | many _ found found' each =>
      cases held.symm.trans found
      cases held'.symm.trans found'
      exact each

theorem keyOf_single_eq_iff (single : f.arity ≠ .many) (suits : SuitsField s.model s.things f v)
    (suits' : SuitsField s.model s.things f v') (run : s.keyOf f v = .ok fk) (run' : s.keyOf f v' = .ok fk') :
    fk = fk' ↔ SameValue s.model s.things f v v' := by
  have present {v : Content} (suits : SuitsField s.model s.things f v)
      (here : ¬(f.arity = .optional ∧ Thing.read s.things v = .none)) : Suits s.model s.things f.type v := by
    cases suits with
    | missing optional none => exact absurd ⟨optional, none⟩ here
    | one _ suits => exact suits
    | many several _ _ => exact absurd several single
  have apart (here : SameValue s.model s.things f v v') :
      (f.arity = .optional ∧ Thing.read s.things v = .none) ↔
        (f.arity = .optional ∧ Thing.read s.things v' = .none) := by
    cases here with
    | missing _ none none' => rw [none, none']
    | one _ same =>
      unfold SameOne at same
      split at same
      · rw [same]
      · rw [same]
    | many several _ _ _ => exact absurd several single
  by_cases absent : f.arity = .optional ∧ Thing.read s.things v = .none <;>
    by_cases absent' : f.arity = .optional ∧ Thing.read s.things v' = .none
  · cases (keyOf_missing ordinary absent.1 absent.2).symm.trans run
    cases (keyOf_missing ordinary absent'.1 absent'.2).symm.trans run'
    exact iff_of_true rfl (.missing absent.1 absent.2 absent'.2)
  · -- Only the first is missing.
    cases (keyOf_missing ordinary absent.1 absent.2).symm.trans run
    obtain ⟨k', one', rfl⟩ := (keyOf_one_run ordinary single (not_and.mp absent')).mp run'
    refine iff_of_false ?_ fun same => absent' ((apart same).mp absent)
    simpa using (keyOfOne_ne_missing one').symm
  · -- Only the second is missing.
    cases (keyOf_missing ordinary absent'.1 absent'.2).symm.trans run'
    obtain ⟨k, one, rfl⟩ := (keyOf_one_run ordinary single (not_and.mp absent)).mp run
    refine iff_of_false ?_ fun same => absent ((apart same).mpr absent')
    simpa using keyOfOne_ne_missing one
  · obtain ⟨k, one, rfl⟩ := (keyOf_one_run ordinary single (not_and.mp absent)).mp run
    obtain ⟨k', one', rfl⟩ := (keyOf_one_run ordinary single (not_and.mp absent')).mp run'
    rw [FieldKey.one.injEq, keyOfOne_eq_iff (present suits absent) (present suits' absent') one one']
    constructor
    · exact .one single
    · intro same
      cases same with
      | missing optional none _ => exact absurd ⟨optional, none⟩ absent
      | one _ same => exact same
      | many several _ _ _ => exact absurd several single

end fields

/-- Keys do not depend on nodes. -/
theorem keyOf_eq_ok_iff {t : Store} (model : t.model = s.model) (keyed : t.keyed = s.keyed)
    (things : t.things = s.things) : t.keyOf f v = .ok fk ↔ s.keyOf f v = .ok fk := by
  have identity : t.byIdentity f.type = s.byIdentity f.type := by
    simp only [Store.byIdentity, model, keyed]
  have one : t.keyOfOne = s.keyOfOne := by
    funext identity v
    simp only [Store.keyOfOne, Store.data, things]
  unfold Store.keyOf
  rw [identity, one]
  simp only [Store.data, things]
  refine bind_eq_ok.trans (Iff.trans (exists_congr fun identity => and_congr_right fun _ => ?_) bind_eq_ok.symm)
  split
  · split
    · exact Iff.rfl
    · exact iff_of_false nofun nofun
  · exact Iff.rfl
  · exact Iff.rfl

theorem keysOf_eq_ok_iff {t : Store} (model : t.model = s.model) (keyed : t.keyed = s.keyed)
    (things : t.things = s.things) : t.keysOf fs vs = .ok fks ↔ s.keysOf fs vs = .ok fks := by
  unfold Store.keysOf
  rw [mapM_eq_ok_iff, mapM_eq_ok_iff]
  simp only [keyOf_eq_ok_iff model keyed things]

section values

variable (ordinary : ∀ f ∈ fs, s.model.Ordinary s.keyed f.type)
include ordinary

/-- Values for all fields have the same keys exactly if they are the same. -/
theorem keysOf_eq_iff (suits : List.Forall₂ (SuitsField s.model s.things) fs vs)
    (suits' : List.Forall₂ (SuitsField s.model s.things) fs vs') (run : s.keysOf fs vs = .ok fks)
    (run' : s.keysOf fs vs' = .ok fks') : fks = fks' ↔ SameValues s.model s.things fs vs vs' := by
  induction suits generalizing vs' fks fks' with
  | nil =>
    cases suits'
    cases run
    cases run'
    exact iff_of_true rfl .nil
  | @cons f v fs vs here _ ih =>
    cases suits' with
    | @cons _ v' _ vs' here' rest' =>
    obtain ⟨ordinary, others⟩ := List.forall_mem_cons.mp ordinary
    obtain ⟨fk, first, run⟩ := bind_eq_ok.mp ((List.mapM_cons ..).symm.trans run)
    obtain ⟨fks, rest, made⟩ := bind_eq_ok.mp run
    obtain ⟨fk', first', run'⟩ := bind_eq_ok.mp ((List.mapM_cons ..).symm.trans run')
    obtain ⟨fks', rest₂, made'⟩ := bind_eq_ok.mp run'
    cases made
    cases made'
    have head : fk = fk' ↔ SameValue s.model s.things f v v' := by
      by_cases several : f.arity = .many
      · exact keyOf_many_eq_iff ordinary several here here' first first'
      · exact keyOf_single_eq_iff ordinary several here here' first first'
    rw [List.cons.injEq, head, ih others rest' rest rest₂]
    constructor
    · rintro ⟨same, rest⟩
      exact .cons same rest
    · intro same
      cases same with
      | cons same rest => exact ⟨same, rest⟩

end values

end ShapeRecovery.Schema
