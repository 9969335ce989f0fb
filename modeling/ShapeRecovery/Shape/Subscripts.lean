import ShapeRecovery.Expr.Division
import ShapeRecovery.Settings
import ShapeRecovery.Trace
import ShapeRecovery.Shape.Basic

namespace ShapeRecovery.ArrayShape

/-- Divide the subscript `k` of an access of an array with `n` dimensions by `inner`. -/
def normalizeElement (iw : Int) (n k : Nat) (inner : Expr) (el : Element) : Traced Element := do
  if !el.isValid || el.subscripts.length ≠ n then return el
  let sub ← itemAt el.subscripts k
  let (q, r) ← Expr.quotRem iw sub inner
  let s ← sub.text
  let p ← inner.text
  let a ← q.text
  let b ← r.text
  Traced.say .dimension
    s!"subscript {k} {s}, product of sizes of previous dimensions {p}, quotient {a}, remainder {b}"
  if r.isZero then return { el with subscripts := el.subscripts.set k q }
  return { el with isValid := false }

/-- Change the accesses one after the other; those before a refusal stay changed. -/
def updateElements (f : Element → Traced Element) :
    (done todo : List Element) → Tracked ArrayShape Unit
  | _, [] => return
  | done, el :: rest => do
    let el ← f el
    modify fun shape => { shape with elements := done ++ el :: rest }
    updateElements f (done ++ [el]) rest

/-- Divide the subscripts of the dimensions before `k`, the inner ones first; `inner` is the product
of the sizes after dimension `k`. -/
def normalizeFrom (iw width : Int) (n : Nat) :
    (k : Nat) → (inner : Expr) → Tracked ArrayShape Unit
  | 0, _ => return
  | k + 1, inner => do
    let d := k + 1
    let shape ← get
    let size := ((shape.dims[d]?).map Dimension.size).getD .uncomputable
    if size.isConst then
      let factor ← Expr.resize width size
      let inner ← Expr.productOf iw [inner, factor]
      updateElements (normalizeElement iw n k inner) [] shape.elements
      normalizeFrom iw width n k inner
    else
      let t ← size.text
      Tracked.say .dimension s!"size of dimension {d} is not a constant: {t}"

/-- The number of dimensions before the hinted ones at the inner end, at least one of `n`. -/
def beforeHinted (dims : List Dimension) : Nat → Nat
  | 0 => 0
  | 1 => 1
  | d + 2 =>
    match dims[d + 1]? with
    | some dim => if dim.hinted then beforeHinted dims (d + 1) else d + 2
    | none => d + 2

/-- Make the subscripts of a sized array those of its dimensions. -/
def normalize (settings : Settings) (width : Int) : Tracked ArrayShape Unit := do
  let shape ← get
  if !shape.sized then throw .notSized
  let name ← shape.base.label
  Tracked.say .dimension s!"simplify subscripts for {name}"
  let n := shape.dims.length
  if (shape.dims.drop 1).any fun dim => dim.size = .uncomputable then throw .innerSizeUnknown
  let start := beforeHinted shape.dims n
  let one ← Expr.one width
  normalizeFrom settings.indexWidth width n (start - 1) one

end ShapeRecovery.ArrayShape
