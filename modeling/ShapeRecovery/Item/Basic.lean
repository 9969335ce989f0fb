import ShapeRecovery.Memory.Access
import ShapeRecovery.Value.Basic

namespace ShapeRecovery

inductive Item
  | symbol (s : Symbol)
  | loop (l : Loop)
  | expr (e : Expr)
  | pointer (p : Pointer)
  | declaration (d : Declaration)
  | access (a : Access)
  | function (f : Function)
deriving DecidableEq

/-- A plain value that may hold what was built. -/
abbrev Argument := Value Item

namespace Item

/-- The complete form. -/
def repr : Item → String
  | symbol s => s.repr
  | loop l => l.repr
  | expr e => e.repr
  | pointer p => p.repr
  | declaration d => d.repr
  | access a => a.repr
  | function f => f.repr

/-- The class of an item, as refusals name it; the complete form of all but symbols begins with
it. -/
def kindName : Item → String
  | symbol _ => "DELIN.prelude.Sym"
  | item => "DELIN.adt." ++ String.ofList (item.repr.toList.takeWhile (· ≠ '('))

/-- The form for reading; declarations, accesses and functions have only the complete one. -/
def text : Item → Except Fault String
  | symbol s => .ok s.name
  | loop l => .ok l.text
  | expr e => e.text
  | pointer p => p.text
  | declaration d => .ok d.repr
  | access a => .ok a.repr
  | function f => .ok f.repr

end Item

namespace Argument

def repr (v : Argument) : String :=
  Value.repr Item.repr v

def expr? : Argument → Option Expr
  | .node (.expr e) => some e
  | _ => none

def loop? : Argument → Option Loop
  | .node (.loop l) => some l
  | _ => none

def pointer? : Argument → Option Pointer
  | .node (.pointer p) => some p
  | _ => none

def declaration? : Argument → Option Declaration
  | .node (.declaration d) => some d
  | _ => none

def access? : Argument → Option Access
  | .node (.access a) => some a
  | _ => none

def extent? : Argument → Option Extent
  | .int n => some (.fixed n)
  | .node (.symbol s) => some (.varying s)
  | _ => none

/-- The access that stands in a list of accesses, or the refusal of something else there. -/
def toAccess (v : Argument) : Except Fault Access :=
  match v.access? with
  | some a => .ok a
  | none => .error (.notAnAccess v.repr)

def toFunction : Argument → Except Fault Function
  | .node (.function f) => .ok f
  | v => .error (.notAFunction v.repr)

/-- The size of a dimension has to be an expression. -/
def toSize (v : Argument) : Except Fault Expr :=
  match v.expr? with
  | some e => .ok e
  | none => .error .notASize

/-- The symbol that a name makes; `id` is its number. -/
def toSymbol (v : Argument) (id : Nat) : Except Fault Symbol :=
  match v with
  | .text s => Symbol.make s id
  | v => .error (.badName v.repr)

end Argument

end ShapeRecovery
