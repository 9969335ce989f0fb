import ShapeRecovery.Schema.Grammar
import ShapeRecovery.Value.Basic

namespace ShapeRecovery.Schema

/-- Tests for the values of an outside type. -/
inductive Predicate
  | any
  | text
  | natural
  | even
  | name
deriving DecidableEq, Repr

namespace Predicate

variable {ν : Type}

def accepts : Predicate → Value ν → Bool
  | any, _ => true
  | text, .text _ => true
  | natural, .int n => n ≥ 0
  | even, .int n => n % 2 = 0
  | name, v => v.isName
  | _, _ => false

end Predicate

/-- Types that need no definition. -/
inductive Builtin
  | text
  | int
  | object
  | bool
deriving DecidableEq, Repr

namespace Builtin

variable {ν : Type}

def ofName? : String → Option Builtin
  | "string" => some text
  | "int" => some int
  | "object" => some object
  | "bool" => some bool
  | _ => none

/-- Anything but nothing is an object. -/
def accepts : Builtin → Value ν → Bool
  | text, .text _ => true
  | int, .int _ => true
  | bool, .bool _ => true
  | object, .none => false
  | object, _ => true
  | _, _ => false

end Builtin

structure Field where
  type : String
  arity : Arity
  name : String
deriving DecidableEq, Repr

/-- A class of nodes; `owner` is the type that it belongs to. -/
structure NodeClass where
  owner : String
  name : String
  fields : List Field
deriving DecidableEq, Repr

structure Model where
  name : String
  /-- The types, with a mark on sums. -/
  types : List (String × Bool)
  classes : List NodeClass
  predicates : List (String × Predicate)
deriving DecidableEq, Repr

/-- How the checks of a class read values and word refusals. -/
structure Checks (ν : Type) where
  /-- What a value holds. -/
  data : Value ν → Value ν
  kind : Value ν → String
  accepts : String → Value ν → Except Fault Bool
  isList : Value ν → Except Fault Bool
  refusal : Fault → Fault

namespace Field

variable {ν : Type}

/-- Refuse a value that is not of the type of a field; `shown` is that type as messages name it. -/
def checkOne (k : Checks ν) (shown : String) (position : Nat) (f : Field) (v : Value ν) :
    Except Fault Unit := do
  if !(← k.accepts f.type v) then throw (k.refusal (.wrongType position f.name shown))

/-- Check the value of a field. An optional one may be missing, and one that holds many is a list. -/
def check (k : Checks ν) (shown : String) (position : Nat) (f : Field) (v : Value ν) :
    Except Fault Unit :=
  match f.arity with
  | .one => f.checkOne k shown position v
  | .optional => if (k.data v).isNone then .ok () else f.checkOne k shown position v
  | .many => do
    if !(← k.isList v) then throw (k.refusal (.notAList position f.name))
    match (k.data v).items? with
    | some items => items.forM (f.checkOne k shown position)
    | none => throw (.unfit .iterate (k.kind v))

end Field

namespace NodeClass

variable {ν : Type}

/-- Check the values of fields in their order, the first at `position`. -/
def checkFrom (k : Checks ν) (shown : String → String) :
    (position : Nat) → List Field → List (Value ν) → Except Fault Unit
  | _, [], [] => .ok ()
  | position, f :: fs, v :: vs => do
    f.check k (shown f.type) position v
    checkFrom k shown (position + 1) fs vs
  | _, _, _ => .error .malformed

/-- The listing of a node with the texts of its values. -/
def listing (c : NodeClass) (values : List String) : String :=
  let parts := (c.fields.zip values).map fun (f, v) => s!"{f.name}={v}"
  c.name ++ "(" ++ ",".intercalate parts ++ ")"

end NodeClass

namespace Model

def isType (m : Model) (name : String) : Bool :=
  m.types.any fun t => t.1 = name

/-- A type as messages name it: those of the grammar go with its name. -/
def shownType (m : Model) (type : String) : String :=
  if m.isType type then s!"{m.name}.{type}" else type

def class? (m : Model) (name : String) : Option NodeClass :=
  m.classes.find? fun c => c.name = name

/-- Fields with their names; a field without one is refused. -/
def nameFields : (position : Nat) → List FieldSpec → Except Fault (List Field)
  | _, [] => .ok []
  | position, f :: fs =>
    match f.name with
    | none => .error (.unnamedItem position)
    | some name => do
      let rest ← nameFields (position + 1) fs
      return ⟨f.type, f.arity, name⟩ :: rest

/-- Words that cannot be the names of parameters. -/
def reservedWords : List String :=
  ["False", "None", "True", "and", "as", "assert", "async", "await", "break", "class", "continue",
    "def", "del", "elif", "else", "except", "finally", "for", "from", "global", "if", "import", "in",
    "is", "lambda", "nonlocal", "not", "or", "pass", "raise", "return", "try", "while", "with",
    "yield"]

/-- The first name that stands after itself, or among those seen before. -/
def firstRepeated? : (seen : List String) → List String → Option String
  | _, [] => none
  | seen, name :: names =>
    if seen.contains name then some name else firstRepeated? (name :: seen) names

/-- The fields of a class are the parameters of its constructor, next to the node itself. -/
def checkParameters (fields : List Field) : Except Fault Unit := do
  let names := fields.map Field.name
  if names.any reservedWords.contains then throw .reservedParameter
  match firstRepeated? ["self"] names with
  | some name => throw (.repeatedParameter name)
  | none => return

/-- Add the classes of the constructors of a sum. -/
def addConstructors (owner : String) (attributes : List FieldSpec) :
    List NodeClass → List ConstructorSpec → Except Fault (List NodeClass)
  | classes, [] => .ok classes
  | classes, c :: cs => do
    if classes.any fun k => k.name = c.name then throw (.repeatedConstructor c.name)
    let fields ← nameFields 0 (c.fields ++ attributes)
    checkParameters fields
    addConstructors owner attributes (classes ++ [⟨owner, c.name, fields⟩]) cs

def addDefinition (classes : List NodeClass) : String × Definition → Except Fault (List NodeClass)
  | (name, .product fields) => do
    let fields ← nameFields 0 fields
    checkParameters fields
    return classes ++ [⟨name, name, fields⟩]
  | (name, .sum constructors attributes) => addConstructors name attributes classes constructors

/-- A type may not have the name of one that needs no definition. -/
def checkShadowing (predicates : List (String × Predicate)) (name : String) : Except Fault Unit :=
  if (Builtin.ofName? name).isSome || predicates.any fun p => p.1 = name then
    .error (.shadowedType name)
  else .ok ()

def isSum : Definition → Bool
  | .sum .. => true
  | .product _ => false

/-- The classes of a grammar, with predicates for its outside types. -/
def ofGrammar (g : Grammar) (predicates : List (String × Predicate)) : Except Fault Model := do
  g.definitions.forM fun d => checkShadowing predicates d.1
  let classes ← g.definitions.foldlM addDefinition []
  return ⟨g.name, g.definitions.map fun d => (d.1, isSum d.2), classes, predicates⟩

/-- Insert a name into an ordered list, once. -/
def insertName (name : String) : List String → List String
  | [] => [name]
  | n :: ns =>
    if name = n then n :: ns else if name < n then name :: n :: ns else n :: insertName name ns

/-- The names that a grammar makes known, in order. -/
def publicNames (m : Model) : List String :=
  (m.types.map Prod.fst ++ m.classes.map NodeClass.name).foldr insertName []

end Model

end ShapeRecovery.Schema
