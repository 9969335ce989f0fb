import ShapeRecovery.Proofs.Schema.Calls

namespace ShapeRecovery.Schema

/-- The nodes of all classes are shared, and fields are of types of the grammar or of built-in ones. -/
structure Model.Memoized (m : Model) (shared keyed : List String) : Prop where
  shared : ∀ c ∈ m.classes, c.name ∈ shared
  ordinary : ∀ c ∈ m.classes, ∀ f ∈ c.fields, m.Ordinary keyed f.type

namespace Store

/-- The store after a history of calls, some of which may be refused. -/
def after (s : Store) (calls : List Call) : Store :=
  calls.foldl (fun s k => (s.call k).2) s

variable {s t u : Store} {c c' : NodeClass} {values values' : List Content} {keys : List FieldKey}
  {k k' : Call} {n n' : Nat} {name : String}

/-- Every call leaves a later store that tells nodes apart. -/
theorem call_extends (sound : Sound s) (k : Call) : Extends s (s.call k).2 ∧ Sound (s.call k).2 := by
  cases run : (s.call k).1 with
  | error e =>
    have keeps := call_refused sound run
    exact ⟨keeps.toExtends, keeps.sound⟩
  | ok n =>
    obtain ⟨c, values, -, -, made⟩ := call_made sound run
    exact ⟨made.toExtends, made.sound⟩

/-- Node `n` of class `c` was given for some values in `s`, and has values in `u` that are the same. -/
structure Stands (s u : Store) (n : Nat) (c : NodeClass) (values : List Content) : Prop where
  later : Extends s u
  sound : Sound u
  made : ∃ k, s.Takes k c values
  suits : List.Forall₂ (SuitsField s.model s.things) c.fields values
  filed : ∃ keys, s.keysOf c.fields values = .ok keys ∧ (c.name, keys, n) ∈ u.known
  node : ∃ held, u.nodes[n]? = some ⟨c, held⟩ ∧ SameValues s.model s.things c.fields values held

section histories

variable (memoized : s.model.Memoized s.shared s.keyed)

include memoized

/-- Values of the types of their fields are so whatever nodes there are. -/
theorem suits_of_typed (mem : c ∈ s.model.classes)
    (typed : List.Forall₂ (Field.Passes s.checks) c.fields values) :
    List.Forall₂ (SuitsField s.model s.things) c.fields values := by
  rw [List.forall₂_iff_zip] at typed ⊢
  exact ⟨typed.1, fun entry => suitsField_of_passes
    (memoized.ordinary c mem _ (List.of_mem_zip entry).1) (typed.2 entry)⟩

/-- A later call gives a node that stands exactly if it is of the same class and its values are the same. -/
theorem Stands.same_iff (stands : Stands s u n c values) (plain : c.hidesChecks = false)
    (run : (u.call k).1 = .ok n') (takes : u.Takes k c' values') :
    n = n' ↔ c = c' ∧ SameValues s.model s.things c.fields values values' := by
  obtain ⟨k₀, takes₀⟩ := stands.made
  obtain ⟨keys, keyed, known⟩ := stands.filed
  have model := stands.later.model
  have memoized' : u.model.Memoized u.shared u.keyed := by
    rwa [model, stands.later.shared, stands.later.keyed]
  obtain ⟨c'', values'', takes', typed, made⟩ := call_made stands.sound run
  obtain ⟨rfl, rfl⟩ := takes.unique takes'
  obtain ⟨keys', keyed', known'⟩ := made.filed (memoized'.shared c' (mem_of_resolve takes.resolved))
  have keyed' : s.keysOf c'.fields values' = .ok keys' :=
    (keysOf_eq_ok_iff model stands.later.keyed stands.later.things).mp keyed'
  -- Of one class, the values of both calls are of the types of its fields.
  have values_iff (same : c = c') :
      keys = keys' ↔ SameValues s.model s.things c.fields values values' := by
    subst same
    have mem := mem_of_resolve takes₀.resolved
    have suits := suits_of_typed memoized' (mem_of_resolve takes.resolved) ((passes_all_iff plain).mp typed)
    rw [model, stands.later.things] at suits
    exact keysOf_eq_iff (memoized.ordinary c mem) stands.suits suits keyed keyed'
  rw [made.sound.exact _ (made.known _ known) _ known']
  constructor
  · rintro ⟨named, same⟩
    have one : c = c' := resolve_unique model takes₀.resolved takes.resolved named
    exact ⟨one, (values_iff one).mp same⟩
  · rintro ⟨one, same⟩
    exact ⟨by rw [one], (values_iff one).mpr same⟩

/-- A node stands through any call: one that is refused leaves it alone, and one that gives it again gives it
values that are the same. -/
theorem Stands.call (stands : Stands s u n c values) (plain : c.hidesChecks = false) (k : Call) :
    Stands s (u.call k).2 n c values := by
  obtain ⟨grown, sound⟩ := call_extends stands.sound k
  obtain ⟨keys, keyed, known⟩ := stands.filed
  have present := stands.sound.filed _ known
  refine ⟨stands.later.trans grown, sound, stands.made, stands.suits, ⟨keys, keyed, grown.known _ known⟩, ?_⟩
  cases run : (u.call k).1 with
  | error e =>
    rw [(call_refused stands.sound run).nodes n present]
    exact stands.node
  | ok n' =>
    obtain ⟨c', values', takes, -, made⟩ := call_made stands.sound run
    by_cases given : n = n'
    · obtain ⟨rfl, same⟩ := (stands.same_iff memoized plain run takes).mp given
      exact ⟨values', given ▸ made.node, same⟩
    · rw [made.others n present given]
      exact stands.node

theorem Stands.after (stands : Stands s u n c values) (plain : c.hidesChecks = false) (calls : List Call) :
    Stands s (u.after calls) n c values := by
  induction calls generalizing u with
  | nil => exact stands
  | cons k calls ih => exact ih (stands.call memoized plain k)

end histories

/-- Two numbers and two texts, alike but in places of their own. -/
def alike : Array Thing :=
  #[.data (.int 1000), .data (.int 1000), .data (.text "north"), .data (.text "north")]

def declarations : Model where
  name := "M"
  types := [("d", true)]
  classes := [
    ⟨"d", "Decl", [⟨"string", .one, "type"⟩, ⟨"int", .many, "dims"⟩]⟩,
    ⟨"d", "Table", [⟨"object", .one, "type"⟩, ⟨"string", .many, "dims"⟩]⟩]
  predicates := []

end Store

end ShapeRecovery.Schema
