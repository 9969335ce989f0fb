import ShapeRecovery.Fault
import ShapeRecovery.Schema.Token

namespace ShapeRecovery.Schema

/-- How many values a field holds. -/
inductive Arity
  | one
  | optional
  | many
deriving DecidableEq, Repr

/-- A field as a grammar writes it; the name may be missing. -/
structure FieldSpec where
  type : String
  arity : Arity
  name : Option String
deriving DecidableEq, Repr

structure ConstructorSpec where
  name : String
  fields : List FieldSpec
deriving DecidableEq, Repr

inductive Definition
  | product (fields : List FieldSpec)
  | sum (constructors : List ConstructorSpec) (attributes : List FieldSpec)
deriving DecidableEq, Repr

structure Grammar where
  name : String
  definitions : List (String × Definition)
deriving DecidableEq, Repr

/-- Reading from a list of tokens; the first of them is the current one. -/
abbrev Reader := StateT (List Token) (Except Fault)

namespace Reader

/-- The current token. -/
def current : Reader Token := do
  match ← get with
  | [] => throw .endOfGrammar
  | t :: _ => return t

/-- Refuse a current token that is no token of grammars. -/
def checkCurrent : Reader Unit := do
  match ← get with
  | ⟨.invalid, text, line⟩ :: _ => throw (.grammar line (.invalidOperator text))
  | _ => return

/-- Read on, and give the text of the token that was current. -/
def advance : Reader String := do
  let t ← current
  modify List.tail
  checkCurrent
  return t.text

/-- Read a token of one of some kinds, which messages call `shown`. -/
def expectAny (kinds : List TokenKind) (shown : String) : Reader String := do
  let t ← current
  if kinds.contains t.kind then advance
  else throw (.grammar t.line (.unmatched shown (toString t.kind.number)))

def expect (kind : TokenKind) : Reader String :=
  expectAny [kind] (toString kind.number)

def isAt (kind : TokenKind) : Reader Bool := do
  let t ← current
  return t.kind = kind

def isAtWord (word : String) : Reader Bool := do
  let t ← current
  return t.kind = .typeName && t.text = word

def arity : Reader Arity := do
  let t ← current
  match t.kind with
  | .asterisk =>
    let _ ← advance
    return .many
  | .question =>
    let _ ← advance
    return .optional
  | _ => return .one

def fieldName : Reader (Option String) := do
  let t ← current
  if t.kind = .constructorName || t.kind = .typeName then
    let name ← advance
    return some name
  return none

def field : Reader FieldSpec := do
  let type ← advance
  let arity ← arity
  let name ← fieldName
  return ⟨type, arity, name⟩

/-- Fields up to the closing parenthesis; a comma after each may be left out. There are no more
than `bound` of them. -/
def fieldList : (bound : Nat) → Reader (List FieldSpec)
  | 0 => return []
  | bound + 1 => do
    if !(← isAt .typeName) then return []
    let f ← field
    if ← isAt .rightParen then return [f]
    if ← isAt .comma then
      let _ ← advance
    let rest ← fieldList bound
    return f :: rest

def fields : Reader (List FieldSpec) := do
  let _ ← expect .leftParen
  let tokens ← get
  let found ← fieldList tokens.length
  let _ ← expect .rightParen
  return found

def optionalFields : Reader (List FieldSpec) := do
  if ← isAt .leftParen then fields else return []

def attributes : Reader (List FieldSpec) := do
  if ← isAtWord "attributes" then
    let _ ← advance
    fields
  else return []

def constructorSpec : Reader ConstructorSpec := do
  let name ← expect .constructorName
  let found ← optionalFields
  return ⟨name, found⟩

/-- Further constructors, each after a bar; there are no more than `bound` of them. -/
def moreConstructors : (bound : Nat) → Reader (List ConstructorSpec)
  | 0 => return []
  | bound + 1 => do
    if !(← isAt .pipe) then return []
    let _ ← advance
    let c ← constructorSpec
    let rest ← moreConstructors bound
    return c :: rest

def definition : Reader Definition := do
  if ← isAt .leftParen then
    let found ← fields
    let _ ← attributes
    return .product found
  let first ← constructorSpec
  let tokens ← get
  let more ← moreConstructors tokens.length
  let common ← attributes
  return .sum (first :: more) common

/-- Definitions as long as a type name comes; there are no more than `bound` of them. -/
def definitionList : (bound : Nat) → Reader (List (String × Definition))
  | 0 => return []
  | bound + 1 => do
    if !(← isAt .typeName) then return []
    let name ← advance
    let _ ← expect .equals
    let d ← definition
    let rest ← definitionList bound
    return (name, d) :: rest

/-- A definition takes the place of an earlier one of its name. -/
def define (defs : List (String × Definition)) (entry : String × Definition) :
    List (String × Definition) :=
  if defs.any fun d => d.1 = entry.1 then
    defs.map fun d => if d.1 = entry.1 then entry else d
  else defs ++ [entry]

/-- A whole grammar; what follows its closing brace is left alone. -/
def grammar : Reader Grammar := do
  checkCurrent
  let t ← current
  if !(← isAtWord "module") then throw (.grammar t.line (.noModule t.text))
  let _ ← advance
  let name ← expectAny [.constructorName, .typeName] "(0, 1)"
  let _ ← expect .leftBrace
  let tokens ← get
  let found ← definitionList tokens.length
  let _ ← expect .rightBrace
  return ⟨name, found.foldl define []⟩

end Reader

/-- The grammar that a text describes. -/
def Grammar.ofString (text : String) : Except Fault Grammar := do
  let (g, _) ← Reader.grammar.run (Token.ofString text)
  return g

end ShapeRecovery.Schema
