import ShapeRecovery.Proofs.Schema.Checks

namespace ShapeRecovery.Schema

/-- A call of a constructor. -/
structure Call where
  name : String
  args : List Content
  named : List (String × Content)

/-- What a call gives for the field at position `i` of a class: an argument in order, or one by name. -/
def Call.argument (k : Call) (c : NodeClass) (i : Nat) : Option Content :=
  if i < k.args.length then k.args[i]?
  else (c.fields[i]?).bind fun f => (k.named.find? fun entry => entry.1 = f.name).map Prod.snd

namespace Store

/-- The result of a call and the store that it leaves, be it refused or not. -/
def call (s : Store) (k : Call) : Except Fault Nat × Store :=
  Tracked.outcome (build k.name k.args k.named) s

/-- The arguments of a call are values for all fields of a class. -/
structure Takes (s : Store) (k : Call) (c : NodeClass) (values : List Content) : Prop where
  resolved : s.resolve k.name = .ok c
  arranged : arrange c.fields k.args k.named = .ok values

/-- The arguments of a call are values for all fields of a class, each of the type of its field, and none of
them is given by the name that the class itself is taken by. -/
structure Fits (s : Store) (k : Call) (c : NodeClass) (values : List Content) : Prop extends
    Takes s k c values where
  typed : List.Forall₂ (Field.Passes s.checks) c.fields values
  free : ∀ entry ∈ k.named, entry.1 ≠ "cls"

/-- A later store knows what an earlier one knew. -/
structure Extends (s t : Store) : Prop where
  model : t.model = s.model
  shared : t.shared = s.shared
  keyed : t.keyed = s.keyed
  things : t.things = s.things
  size : s.nodes.size ≤ t.nodes.size
  known : ∀ entry ∈ s.known, entry ∈ t.known

/-- Known nodes are told apart by their classes and keys. -/
structure Sound (s : Store) : Prop where
  filed : ∀ entry ∈ s.known, entry.2.2 < s.nodes.size
  exact : ∀ entry ∈ s.known, ∀ entry' ∈ s.known,
    entry.2.2 = entry'.2.2 ↔ entry.1 = entry'.1 ∧ entry.2.1 = entry'.2.1

/-- A later store has the nodes of an earlier one as they were. -/
structure Keeps (s t : Store) : Prop extends Extends s t where
  sound : Sound t
  nodes : ∀ j < s.nodes.size, t.nodes[j]? = s.nodes[j]?

variable {s t u : Store} {c c' : NodeClass} {values : List Content} {keys : List FieldKey} {k : Call}
  {n : Nat} {e : Fault} {fields : List Field} {args : List Content} {named : List (String × Content)}

theorem Extends.refl (s : Store) : Extends s s :=
  ⟨rfl, rfl, rfl, rfl, Nat.le_refl _, fun _ mem => mem⟩

theorem Extends.trans (first : Extends s t) (next : Extends t u) : Extends s u where
  model := next.model.trans first.model
  shared := next.shared.trans first.shared
  keyed := next.keyed.trans first.keyed
  things := next.things.trans first.things
  size := Nat.le_trans first.size next.size
  known entry mem := next.known entry (first.known entry mem)

theorem Keeps.refl (sound : Sound s) : Keeps s s :=
  ⟨.refl s, sound, fun _ _ => rfl⟩

section resolving

theorem resolve_run {name : String} (run : s.resolve name = .ok c) :
    s.model.class? (lastPart name) = some c := by
  unfold resolve at run
  dsimp only at run
  split at run
  · next found =>
    cases run
    exact found
  · split at run <;> cases run

theorem mem_of_resolve (run : s.resolve k.name = .ok c) : c ∈ s.model.classes :=
  List.mem_of_find?_eq_some (resolve_run run)

/-- A class is known by its name. -/
theorem resolve_unique {k' : Call} (model : t.model = s.model) (run : s.resolve k.name = .ok c)
    (run' : t.resolve k'.name = .ok c') (same : c.name = c'.name) : c = c' := by
  have own {s : Store} {name : String} {c : NodeClass} (run : s.resolve name = .ok c) :
      s.model.class? c.name = some c := by
    have found := resolve_run run
    have named := List.find?_some found
    rw [of_decide_eq_true named, found]
  have first := own run
  have second := own run'
  rw [model, ← same, first] at second
  exact Option.some.inj second

end resolving

section arranging

private theorem namedValues_congr {missing missing' : Field → Fault}
    (run : namedValues missing fields named = .ok values) : namedValues missing' fields named = .ok values := by
  unfold namedValues at run ⊢
  rw [mapM_eq_ok_iff] at run ⊢
  refine run.imp fun f v found => ?_
  split at found
  · cases found
    rfl
  · cases found

private theorem namedValues_nil {missing : Field → Fault} (run : namedValues missing fields [] = .ok values) :
    values = [] := by
  cases fields with
  | nil =>
    cases run
    rfl
  | cons f fields =>
    unfold namedValues at run
    rw [List.mapM_cons] at run
    obtain ⟨v, found, -⟩ := bind_eq_ok.mp run
    cases found

/-- Values are arranged in order first, then by name. -/
theorem arrange_run (run : arrange fields args named = .ok values) :
    ∃ rest, namedValues (fun _ => .malformed) (fields.drop args.length) named = .ok rest ∧
      values = args ++ rest := by
  unfold arrange at run
  dsimp only at run
  split at run
  · cases run
  split at run
  · cases run
  obtain ⟨rest, found, made⟩ := bind_eq_ok.mp run
  cases made
  exact ⟨rest, found, rfl⟩

/-- A node is looked up by the values that it takes on. -/
theorem lookedUp_of_arrange (run : arrange fields args named = .ok values) :
    lookedUp fields args named = .ok values := by
  obtain ⟨rest, found, rfl⟩ := arrange_run run
  unfold lookedUp
  split
  · next none =>
    rw [List.isEmpty_iff] at none
    subst none
    rw [namedValues_nil found, List.append_nil]
    rfl
  · rw [namedValues_congr found]
    rfl

theorem Takes.unique {values' : List Content} (takes : s.Takes k c values) (takes' : s.Takes k c' values') :
    c = c' ∧ values = values' := by
  obtain rfl : c = c' := Except.ok.inj (takes.resolved.symm.trans takes'.resolved)
  exact ⟨rfl, Except.ok.inj (takes.arranged.symm.trans takes'.arranged)⟩

/-- The values of a call are arranged, then checked. -/
theorem checked_eq_ok_iff : s.checked c k.args k.named = .ok values ↔
    arrange c.fields k.args k.named = .ok values ∧
      List.Forall₂ (Field.Passes (s.checksBeside c values)) c.fields values := by
  unfold checked
  rw [bind_eq_ok]
  constructor
  · rintro ⟨found, arranged, run⟩
    obtain ⟨_, typed, made⟩ := bind_eq_ok.mp run
    cases made
    exact ⟨arranged, checkFrom_eq_ok_iff.mp typed⟩
  · rintro ⟨arranged, typed⟩
    refine ⟨values, arranged, ?_⟩
    rw [checkFrom_eq_ok_iff.mpr typed, ok_bind]
    rfl

/-- Where no field hides what checks go by, values pass the checks of their class exactly if they are of the
types of their fields. -/
theorem passes_all_iff (plain : c.hidesChecks = false) :
    List.Forall₂ (Field.Passes (s.checksBeside c values)) c.fields values ↔
      List.Forall₂ (Field.Passes s.checks) c.fields values := by
  have step {k k' : Checks Handle} (same : ∀ f ∈ c.fields, ∀ v, f.Passes k v → f.Passes k' v)
      (each : List.Forall₂ (Field.Passes k) c.fields values) :
      List.Forall₂ (Field.Passes k') c.fields values := by
    rw [List.forall₂_iff_zip] at each ⊢
    exact ⟨each.1, fun mem => same _ (List.of_mem_zip mem).1 _ (each.2 mem)⟩
  constructor
  · exact step fun f mem v => (passes_beside_iff plain mem).mp
  · exact step fun f mem v => (passes_beside_iff plain mem).mpr

end arranging

section allocating

private theorem makeBlank_run (c : NodeClass) (s : Store) :
    Tracked.outcome (makeBlank c) s = (.ok s.nodes.size, { s with nodes := s.nodes.push ⟨c, []⟩ }) := rfl

private theorem lookUp_refused (refused : s.keysOf c.fields values = .error e) :
    Tracked.outcome (lookUp c values) s = (.error e, s) := by
  unfold lookUp
  rw [Tracked.get_bind, Tracked.liftExcept_of_error refused]

private theorem lookUp_known {entry : String × List FieldKey × Nat} (run : s.keysOf c.fields values = .ok keys)
    (found : s.known.find? (fun entry => entry.1 = c.name && entry.2.1 = keys) = some entry) :
    Tracked.outcome (lookUp c values) s = (.ok entry.2.2, s) := by
  unfold lookUp
  rw [Tracked.get_bind, Tracked.liftExcept_of_ok run]
  simp only [found]
  rfl

private theorem lookUp_new (run : s.keysOf c.fields values = .ok keys)
    (absent : s.known.find? (fun entry => entry.1 = c.name && entry.2.1 = keys) = none) :
    Tracked.outcome (lookUp c values) s = (.ok s.nodes.size,
      { s with
        nodes := s.nodes.push ⟨c, []⟩
        known := (c.name, keys, s.nodes.size) :: s.known }) := by
  unfold lookUp
  rw [Tracked.get_bind, Tracked.liftExcept_of_ok run]
  simp only [absent]
  rfl

private theorem keeps_blank (sound : Sound s) (c : NodeClass) :
    Keeps s { s with nodes := s.nodes.push ⟨c, []⟩ } where
  toExtends := ⟨rfl, rfl, rfl, rfl, by simp, fun _ mem => mem⟩
  sound := ⟨fun entry mem => by simpa using Nat.lt_succ_of_lt (sound.filed entry mem), sound.exact⟩
  nodes j lt := by simp [Array.getElem?_push, Nat.ne_of_lt lt]

private theorem keeps_filed (sound : Sound s)
    (absent : ∀ entry ∈ s.known, ¬(entry.1 = c.name ∧ entry.2.1 = keys)) :
    Keeps s { s with
      nodes := s.nodes.push ⟨c, []⟩
      known := (c.name, keys, s.nodes.size) :: s.known } where
  toExtends := ⟨rfl, rfl, rfl, rfl, by simp, fun _ mem => List.mem_cons_of_mem _ mem⟩
  nodes j lt := by simp [Array.getElem?_push, Nat.ne_of_lt lt]
  sound.filed entry mem := by
    rcases List.mem_cons.mp mem with rfl | mem
    · simp
    · simpa using Nat.lt_succ_of_lt (sound.filed entry mem)
  sound.exact entry mem entry' mem' := by
    rcases List.mem_cons.mp mem with rfl | mem <;> rcases List.mem_cons.mp mem' with rfl | mem'
    · simp
    · -- The new node is none of those known before, nor are its keys.
      refine iff_of_false (Nat.ne_of_gt (sound.filed entry' mem')) fun same => ?_
      exact absent entry' mem' ⟨same.1.symm, same.2.symm⟩
    · exact iff_of_false (Nat.ne_of_lt (sound.filed entry mem)) (absent entry mem)
    · exact sound.exact entry mem entry' mem'

/-- A look-up gives the node that is known by the keys of the values. -/
theorem lookUp_run (sound : Sound s) (run : s.keysOf c.fields values = .ok keys) :
    ∃ n t, Tracked.outcome (lookUp c values) s = (.ok n, t) ∧ Keeps s t ∧ (c.name, keys, n) ∈ t.known := by
  cases found : s.known.find? (fun entry => entry.1 = c.name && entry.2.1 = keys) with
  | none =>
    have absent : ∀ entry ∈ s.known, ¬(entry.1 = c.name ∧ entry.2.1 = keys) := by
      simpa using found
    exact ⟨_, _, lookUp_new run found, keeps_filed sound absent, List.mem_cons_self⟩
  | some entry =>
    obtain ⟨name, keys', n⟩ := entry
    have mem := List.mem_of_find?_eq_some found
    obtain ⟨rfl, rfl⟩ : name = c.name ∧ keys' = keys := by simpa using List.find?_some found
    exact ⟨n, s, lookUp_known run found, .refl sound, mem⟩

/-- What finding or making the node of a call can do. -/
private theorem allocate_cases (sound : Sound s) (c : NodeClass) (args : List Content)
    (named : List (String × Content)) :
    (∃ e, Tracked.outcome (allocate c args named) s = (.error e, s)) ∨
      ∃ n t, Tracked.outcome (allocate c args named) s = (.ok n, t) ∧ Keeps s t ∧ n < t.nodes.size ∧
        (c.name ∈ s.shared → (∀ entry ∈ named, entry.1 ≠ "cls") ∧ ∃ values keys,
          lookedUp c.fields args named = .ok values ∧ s.keysOf c.fields values = .ok keys ∧
            (c.name, keys, n) ∈ t.known) := by
  unfold allocate
  rw [Tracked.get_bind]
  split
  · split
    · exact .inl ⟨_, rfl⟩
    · next free =>
      have free : ∀ entry ∈ named, entry.1 ≠ "cls" := by
        simpa only [List.any_eq_true, decide_eq_true_eq, not_exists, not_and] using free
      cases given : Store.lookedUp c.fields args named with
      | error e => exact .inl ⟨e, Tracked.liftExcept_of_error rfl⟩
      | ok values =>
        rw [Tracked.liftExcept_of_ok rfl]
        cases run : s.keysOf c.fields values with
        | error e => exact .inl ⟨e, lookUp_refused run⟩
        | ok keys =>
          obtain ⟨n, t, placed, keeps, known⟩ := lookUp_run sound run
          exact .inr ⟨n, t, placed, keeps, keeps.sound.filed _ known, fun _ =>
            ⟨free, values, keys, rfl, run, known⟩⟩
  · next other =>
    refine .inr ⟨_, _, makeBlank_run c s, keeps_blank sound c, by simp, fun shared => ?_⟩
    exact absurd shared (by simpa using other)

end allocating

section calling

private theorem call_unresolved (refused : s.resolve k.name = .error e) : s.call k = (.error e, s) := by
  unfold call build
  rw [Tracked.get_bind, Tracked.liftExcept_of_error refused]

private theorem call_unplaced (resolved : s.resolve k.name = .ok c)
    (refused : Tracked.outcome (allocate c k.args k.named) s = (.error e, t)) : s.call k = (.error e, t) := by
  unfold call build
  rw [Tracked.get_bind, Tracked.liftExcept_of_ok resolved, Tracked.bind_of_error refused]

private theorem call_unchecked (resolved : s.resolve k.name = .ok c)
    (placed : Tracked.outcome (allocate c k.args k.named) s = (.ok n, t))
    (refused : s.checked c k.args k.named = .error e) : s.call k = (.error e, t) := by
  unfold call build
  rw [Tracked.get_bind, Tracked.liftExcept_of_ok resolved, Tracked.bind_of_ok placed,
    Tracked.liftExcept_of_error refused]

theorem call_done (resolved : s.resolve k.name = .ok c)
    (placed : Tracked.outcome (allocate c k.args k.named) s = (.ok n, t))
    (checked : s.checked c k.args k.named = .ok values) :
    s.call k = (.ok n, { t with nodes := t.nodes.setIfInBounds n ⟨c, values⟩ }) := by
  unfold call build
  rw [Tracked.get_bind, Tracked.liftExcept_of_ok resolved, Tracked.bind_of_ok placed,
    Tracked.liftExcept_of_ok checked]
  rfl

/-- What a call that succeeds does: its node takes on the values of the call, and nothing else changes. The
node of a shared class is known by the keys of the values. -/
structure Made (s t : Store) (n : Nat) (c : NodeClass) (values : List Content) : Prop extends
    Extends s t where
  sound : Sound t
  node : t.nodes[n]? = some ⟨c, values⟩
  others : ∀ j < s.nodes.size, j ≠ n → t.nodes[j]? = s.nodes[j]?
  filed : c.name ∈ s.shared → ∃ keys, s.keysOf c.fields values = .ok keys ∧ (c.name, keys, n) ∈ t.known

/-- What a call can do: it is refused before its node takes on any values, or its values pass the checks. -/
theorem call_cases (sound : Sound s) (k : Call) :
    (∃ e t, s.call k = (.error e, t) ∧ Keeps s t) ∨
      ∃ n t c values, s.call k = (.ok n, t) ∧ s.Takes k c values ∧
        List.Forall₂ (Field.Passes (s.checksBeside c values)) c.fields values ∧
        (c.name ∈ s.shared → ∀ entry ∈ k.named, entry.1 ≠ "cls") ∧ Made s t n c values := by
  cases resolved : s.resolve k.name with
  | error e => exact .inl ⟨e, s, call_unresolved resolved, .refl sound⟩
  | ok c =>
    rcases allocate_cases sound c k.args k.named with ⟨e, refused⟩ | ⟨n, t, placed, keeps, present, filed⟩
    · exact .inl ⟨e, s, call_unplaced resolved refused, .refl sound⟩
    cases checked : s.checked c k.args k.named with
    | error e => exact .inl ⟨e, t, call_unchecked resolved placed checked, keeps⟩
    | ok values =>
      obtain ⟨arranged, typed⟩ := checked_eq_ok_iff.mp checked
      refine .inr ⟨n, _, c, values, call_done resolved placed checked, ⟨resolved, arranged⟩, typed,
        fun shared => (filed shared).1, ?_⟩
      exact {
        model := keeps.model
        shared := keeps.shared
        keyed := keeps.keyed
        things := keeps.things
        size := by simpa using keeps.size
        known := keeps.known
        sound := ⟨by simpa using keeps.sound.filed, keeps.sound.exact⟩
        node := by simp [present]
        others := fun j lt other => by
          rw [← keeps.nodes j lt]
          simp [other.symm]
        filed := fun shared => by
          obtain ⟨-, values', keys, found, run, known⟩ := filed shared
          cases found.symm.trans (lookedUp_of_arrange arranged)
          exact ⟨keys, run, known⟩ }

/-- A call that is refused changes no node. -/
theorem call_refused (sound : Sound s) (refused : (s.call k).1 = .error e) : Keeps s (s.call k).2 := by
  rcases call_cases sound k with ⟨e', t, run, keeps⟩ | ⟨n, t, c, values, run, -⟩
  · rw [run]
    exact keeps
  · rw [run] at refused
    cases refused

theorem call_made (sound : Sound s) (run : (s.call k).1 = .ok n) :
    ∃ c values, s.Takes k c values ∧ List.Forall₂ (Field.Passes (s.checksBeside c values)) c.fields values ∧
      Made s (s.call k).2 n c values := by
  rcases call_cases sound k with ⟨e, t, refused, -⟩ | ⟨n', t, c, values, done, takes, typed, -, made⟩
  · rw [refused] at run
    cases run
  · rw [done] at run ⊢
    cases run
    exact ⟨c, values, takes, typed, made⟩

end calling

end Store

end ShapeRecovery.Schema
