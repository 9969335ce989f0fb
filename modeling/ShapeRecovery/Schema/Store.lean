import ShapeRecovery.Schema.Content
import ShapeRecovery.Schema.Model
import ShapeRecovery.Trace

namespace ShapeRecovery.Schema

/-- A node; a blank one has no values yet. -/
structure Node where
  nodeClass : NodeClass
  values : List Content

structure Store where
  model : Model
  /-- The classes whose nodes are shared. -/
  shared : List String
  /-- Outside types whose values are compared by equality. -/
  keyed : List String
  /-- The caller's things by their addresses. -/
  things : Array Thing
  nodes : Array Node
  /-- The shared nodes with their classes and keys. -/
  known : List (String × List FieldKey × Nat)

namespace Store

def ofModel (model : Model) (shared keyed : List String) (things : Array Thing) : Store :=
  ⟨model, shared, keyed, things, #[], []⟩

/-- The class of node `n`, if there is such a node. -/
def classOf? (s : Store) (n : Nat) : Option NodeClass :=
  (s.nodes[n]?).map Node.nodeClass

/-- Whether node `n` is of a type or a class. -/
def isA (s : Store) (name : String) (n : Nat) : Bool :=
  match s.classOf? n with
  | some c => c.name = name || c.owner = name
  | none => false

/-- What a value holds. -/
def data (s : Store) (v : Content) : Content :=
  Thing.read s.things v

/-- The kind of a value, as refusals name it. -/
def kindOf (s : Store) (v : Content) : String :=
  (s.data v).kindName fun
    | .node n => ((s.classOf? n).map NodeClass.name).getD ""
    | .object _ => if (Thing.function? s.things v).isSome then "function" else "object"

/-- Whether a value is of a type.  Predicates come before the built-in types. -/
def accepts (s : Store) (type : String) (v : Content) : Except Fault Bool :=
  if s.model.isType type then
    match s.data v with
    | .node (.node n) => .ok (s.isA type n)
    | _ => .ok false
  else
    match s.model.predicates.find? fun p => p.1 = type with
    | some (_, p) => .ok (p.accepts (s.data v))
    | none =>
      match Builtin.ofName? type with
      | some b => .ok (b.accepts (s.data v))
      | none => .error (.missingKey (Text.quoted type))

/-- How the values of a type are told apart: as things, or by equality. -/
def byIdentity (s : Store) (type : String) : Except Fault Bool :=
  if s.model.isType type then .ok true
  else if s.keyed.contains type then .ok false
  else
    match Builtin.ofName? type with
    | some b => .ok (b = .object)
    | none => .error (.missingKey (Text.quoted type))

/-- The key of one value. -/
def keyOfOne (s : Store) (identity : Bool) (v : Content) : Except Fault Key :=
  if identity then .ok (.thing v) else Key.ofEqual (s.data v)

/-- The key of the value of a field. -/
def keyOf (s : Store) (f : Field) (v : Content) : Except Fault FieldKey := do
  let identity ← s.byIdentity f.type
  match f.arity with
  | .many =>
    match (s.data v).items? with
    | some items =>
      let ks ← items.mapM (s.keyOfOne identity)
      return .row ks
    | none => throw (.unfit .iterate (s.kindOf v))
  | .optional =>
    if (s.data v).isNone then return .one .missing
    let k ← s.keyOfOne identity v
    return .one k
  | .one =>
    let k ← s.keyOfOne identity v
    return .one k

/-- The keys of values, as far as both fields and values go. -/
def keysOf (s : Store) (fields : List Field) (values : List Content) : Except Fault (List FieldKey) :=
  (fields.zip values).mapM fun entry => s.keyOf entry.1 entry.2

/-- The values of fields that stand in a list of named values; `missing` refuses a field without
one. -/
def namedValues (missing : Field → Fault) (fields : List Field) (named : List (String × Content)) :
    Except Fault (List Content) :=
  fields.mapM fun f =>
    match named.find? fun entry => entry.1 = f.name with
    | some (_, v) => .ok v
    | none => .error (missing f)

/-- The values that a shared node is looked up by: those given in order, then, if any are given by
name, those of the other fields. -/
def lookedUp (fields : List Field) (args : List Content) (named : List (String × Content)) :
    Except Fault (List Content) := do
  if named.isEmpty then return args
  let rest ← namedValues (fun f => .missingKey (Text.quoted f.name)) (fields.drop args.length) named
  return args ++ rest

/-- The values of all fields: those given in order, then those given by name. Every field takes one
value. -/
def arrange (fields : List Field) (args : List Content) (named : List (String × Content)) :
    Except Fault (List Content) := do
  let others := fields.drop args.length
  if fields.length < args.length then throw .malformed
  if named.any fun entry => !others.any fun f => f.name = entry.1 then throw .malformed
  let rest ← namedValues (fun _ => .malformed) others named
  return args ++ rest

/-- The last part of a name with dots. -/
def lastPart (name : String) : String :=
  String.ofList (name.toList.reverse.takeWhile (· ≠ '.')).reverse

/-- The class that a name stands for; an abstract type cannot be built. -/
def resolve (s : Store) (name : String) : Except Fault NodeClass :=
  let last := lastPart name
  match s.model.class? last with
  | some c => .ok c
  | none => if s.model.isType last then .error (.abstractType last) else .error .malformed

/-- Make a blank node. -/
def makeBlank (c : NodeClass) : Tracked Store Nat := do
  let s ← get
  set { s with nodes := s.nodes.push ⟨c, []⟩ }
  return s.nodes.size

/-- The node that is known by the keys of some values, or a blank one that is known by them from now
on. -/
def lookUp (c : NodeClass) (values : List Content) : Tracked Store Nat := do
  let s ← get
  let keys ← s.keysOf c.fields values
  match s.known.find? fun entry => entry.1 = c.name && entry.2.1 = keys with
  | some (_, _, n) => return n
  | none =>
    let n ← makeBlank c
    modify fun s => { s with known := (c.name, keys, n) :: s.known }
    return n

/-- The node that a call is about, blank if it was not known before. A shared class takes the class itself
by the name `cls`, so that no argument can have this name. -/
def allocate (c : NodeClass) (args : List Content) (named : List (String × Content)) :
    Tracked Store Nat := do
  let s ← get
  if s.shared.contains c.name then
    if named.any fun entry => entry.1 = "cls" then throw .malformed
    let values ← lookedUp c.fields args named
    lookUp c values
  else makeBlank c

/-- What a function answers. -/
def apply (s : Store) (f v : Content) : Except Fault Answer :=
  match Thing.function? s.things f with
  | some answer => answer v
  | none => .error (.unfit .call (s.kindOf f))

/-- What a record holds under a name. -/
def subscript (s : Store) (v : Content) (name : String) : Except Fault Content :=
  match s.data v with
  | .record fields =>
    match fields.find? fun entry => entry.1 = name with
    | some (_, v) => .ok v
    | none => .error (.missingKey (Text.quoted name))
  | _ => .error (.unfit .subscript (s.kindOf v))

def isTrueAnswer (s : Store) : Answer → Bool
  | .value v => (s.data v).isTrue
  | .listClass => true

/-- The checks that a grammar asks for. -/
def checks (s : Store) : Checks Handle where
  data := s.data
  kind := s.kindOf
  accepts := s.accepts
  isList v := .ok (s.data v).isList
  refusal fault := fault

/-- The value of the field of a class that has a name. -/
def argument? (c : NodeClass) (values : List Content) (name : String) : Option Content :=
  ((c.fields.zip values).find? fun entry => entry.1.name = name).map Prod.snd

/-- The checks that are made beside values for the fields of a class. They go by the names `CHK`, `type`,
`list` and `TypeError`, and a field of such a name hides what is meant. -/
def checksBeside (s : Store) (c : NodeClass) (values : List Content) : Checks Handle where
  data := s.data
  kind := s.kindOf
  accepts type v :=
    match argument? c values "CHK" with
    | none => s.accepts type v
    | some table => do
      let f ← s.subscript table type
      let answer ← s.apply f v
      return s.isTrueAnswer answer
  isList v := do
    let kind ← match argument? c values "type" with
      | none => pure (if (s.data v).isList then some .listClass else none)
      | some f => (s.apply f v).map some
    return kind = some (match argument? c values "list" with
      | none => .listClass
      | some v => .value v)
  refusal fault :=
    match argument? c values "TypeError" with
    | none => fault
    | some f =>
      match s.apply f (.text fault.message) with
      | .error refused => refused
      | .ok _ => .unfit .raise ""

/-- The values of all fields, as far as they pass the checks. -/
def checked (s : Store) (c : NodeClass) (args : List Content) (named : List (String × Content)) :
    Except Fault (List Content) := do
  let values ← arrange c.fields args named
  NodeClass.checkFrom (s.checksBeside c values) s.model.shownType 0 c.fields values
  return values

/-- Let a node take on values. -/
def fill (n : Nat) (c : NodeClass) (values : List Content) : Tracked Store Unit :=
  modify fun s => { s with nodes := s.nodes.setIfInBounds n ⟨c, values⟩ }

/-- Build a node, or find the one that is known by the same keys. A known node takes on the new
values, which may be equal without being written alike. -/
def build (name : String) (args : List Content) (named : List (String × Content)) :
    Tracked Store Nat := do
  let s ← get
  let c ← s.resolve name
  let n ← allocate c args named
  let values ← s.checked c args named
  fill n c values
  return n

/-- The text of a handle, down to `depth` levels; nodes and things hold older ones only. -/
def textWithin (s : Store) : (depth : Nat) → Handle → String
  | 0, _ => ""
  | depth + 1, .node n =>
    match s.nodes[n]? with
    | some node => node.nodeClass.listing (node.values.map fun v => v.repr (s.textWithin depth))
    | none => ""
  | depth + 1, .object a =>
    match s.data (.node (.object a)) with
    | .node _ => "<object object at 0x" ++ String.ofList (Nat.toDigits 16 a) ++ ">"
    | v => v.repr (s.textWithin depth)

/-- The text of a value. -/
def reprOf (s : Store) (v : Content) : String :=
  v.repr (s.textWithin (s.nodes.size + s.things.size + 1))

/-- The value of a field of node `n`. -/
def get? (s : Store) (n : Nat) (field : String) : Option Content := do
  let node ← s.nodes[n]?
  let (_, v) ← (node.nodeClass.fields.zip node.values).find? fun entry => entry.1.name = field
  return v

def isClassOf (s : Store) (name type : String) : Bool :=
  s.model.classes.any fun c => c.name = name && c.owner = type

end Store

end ShapeRecovery.Schema
