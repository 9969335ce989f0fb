import ShapeRecovery.Expr.LinearForm
import ShapeRecovery.Shape.Registry
import ShapeRecovery.Text.Document

namespace ShapeRecovery.Registry

/-- The two parts of a subscript, and a mark where a cast makes them unsafe. -/
def subscriptDocument (iw : Int) (sub : Expr) : Except Fault Document := do
  let form ← Expr.linearParts iw sub
  let a ← form.a.text
  let b ← form.b.text
  let parts := [("a", Document.text a), ("b", .text b)]
  return .record (if form.safe then parts else parts ++ [("unsafe", .flag true)])

def elementDocument (iw : Int) (el : Element) : Except Fault Document := do
  let subs ← el.subscripts.mapM (subscriptDocument iw)
  return .list subs

/-- The sizes and the accesses of an array, each under its name. -/
structure Entry where
  name : String
  sizes : Document
  accesses : Document

def entry (iw : Int) (shape : ArrayShape) (name : String) : Except Fault Entry := do
  let sizes ← Expr.textList shape.sizes
  let accesses ← shape.elements.mapM (elementDocument iw)
  return ⟨name, .list (sizes.map .text), .list accesses⟩

/-- The entries of the arrays; of arrays with one name only the first is kept. -/
def entries (iw : Int) (seen : List String) : List ArrayShape → Except Fault (List Entry)
  | [] => .ok []
  | shape :: rest => do
    let name ← shape.base.label
    if seen.contains name then return ← entries iw seen rest
    let here ← entry iw shape name
    let others ← entries iw (name :: seen) rest
    return here :: others

/-- The sizes of dimensions and the subscripts of accesses, per array. -/
def document (iw : Int) (r : Registry) : Except Fault Document := do
  let found ← entries iw [] r.arrays
  return .record [
    ("Sizes", .record (found.map fun e => (e.name, e.sizes))),
    ("Accesses", .record (found.map fun e => (e.name, e.accesses)))]

def subscriptLines (iw : Int) (sub : Expr) : Except Fault (List String) := do
  let form ← Expr.linearParts iw sub
  let s ← sub.text
  let a ← form.a.text
  let b ← form.b.text
  let lines := [s!"      SCEV: {s}", s!"      a: {a}", s!"      b: {b}"]
  return if form.safe then lines else lines ++ ["      with unsafe cast"]

def elementLines (iw : Int) (el : Element) : Except Fault (List String) := do
  let p ← el.ptr.text
  let mark := if el.isValid then "" else " (invalid)"
  let subs ← el.subscripts.mapM (subscriptLines iw)
  return s!"    address: {p}{mark}" :: subs.flatten

/-- One line per dimension, numbered from `d`. -/
def sizeLines (d : Nat) : List Expr → Except Fault (List String)
  | [] => .ok []
  | size :: rest => do
    let t ← size.text
    let others ← sizeLines (d + 1) rest
    return s!"    {d}: {t}" :: others

def arrayLines (iw : Int) (shape : ArrayShape) : Except Fault (List String) := do
  let b ← shape.base.text
  let verdict := if shape.sized then [] else ["  unable to delinearize"]
  let sizes ← sizeLines 0 shape.sizes
  let elements ← shape.elements.mapM (elementLines iw)
  return [s!"base object {b}", s!"  number of dimensions {shape.dims.length}"] ++ verdict ++ sizes
    ++ ["  accesses:"] ++ elements.flatten

/-- The listing of all arrays. -/
def listing (iw : Int) (r : Registry) : Except Fault String := do
  let parts ← r.arrays.mapM (arrayLines iw)
  return "\n".intercalate ("delinearization results:" :: parts.flatten)

end ShapeRecovery.Registry
