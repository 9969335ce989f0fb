import ShapeRecovery.Expr.Text
import ShapeRecovery.Memory.Declaration

namespace ShapeRecovery

inductive Pointer
  | object (name : Symbol) (declared : Option Declaration)
  | load (source : Pointer)
  | index (base : Pointer) (idx : List Expr)
  | cast (source : Pointer)
deriving DecidableEq

namespace Pointer

/-- The form for reading. -/
def text : Pointer → Except Fault String
  | object name _ => .ok s!"@{name.name}"
  | load source => do
    let p ← text source
    return s!"load({p})"
  | index base idx => do
    let row ← Expr.textList idx
    let p ← text base
    return p ++ Text.bracketed row
  | cast source => do
    let p ← text source
    return s!"cast({p})"

/-- The complete form. -/
def repr : Pointer → String
  | object name declared =>
    let d := (declared.map Declaration.repr).getD "None"
    s!"Object(name={name.repr},decl={d})"
  | load source => s!"Load(src={repr source})"
  | index base idx => s!"Index(base={repr base},idx={Text.bracketed (Expr.reprList idx)})"
  | cast source => s!"Cast(src={repr source})"

/-- The name of an object, or the form for reading of another pointer. -/
def label : Pointer → Except Fault String
  | object name _ => .ok name.name
  | p => p.text

/-- The pointer without its outer indexing steps and casts. -/
def stripSteps : Pointer → Pointer
  | index base _ => stripSteps base
  | cast source => stripSteps source
  | p => p

/-- The object that is accessed.  A pointer loaded from memory stands for the place it was loaded
from. -/
def accessedObject (p : Pointer) : Pointer :=
  match p.stripSteps with
  | load source => source
  | q => q

/-- The sizes of dimensions that the declaration of an object tells; none without a declaration. -/
def declaredSizes : Pointer → Option (List Int)
  | object _ (some d) => some d.sizes
  | _ => none

/-- The index lists of the outer indexing steps, the outermost last; at most `limit` of them if
there is a limit. -/
def outerSteps (limit : Option Nat) : Pointer → List (List Expr)
  | index base idx =>
    match limit with
    | none => outerSteps none base ++ [idx]
    | some 0 => []
    | some (n + 1) => outerSteps (some n) base ++ [idx]
  | _ => []

end Pointer

/-- The subscripts of one indexing step. Several indices start with one that moves over whole
objects; it is dropped if it is zero. -/
def stepSubscripts : List Expr → Except Fault (List Expr)
  | [] => .error .noSuchItem
  | [e] => .ok [e]
  | e :: es => .ok (if e.isZero then es else e :: es)

/-- The subscripts of a chain of indexing steps, the outermost step last. -/
def chainSubscripts (steps : List (List Expr)) : Except Fault (List Expr) := do
  let parts ← steps.mapM stepSubscripts
  return parts.flatten

end ShapeRecovery
