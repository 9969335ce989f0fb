import ShapeRecovery.Expr.CommonDivisor
import ShapeRecovery.Shape.Basic

namespace ShapeRecovery.ArrayShape

/-- A declared size counts as known if it is positive. -/
def isKnownSize (size : Int) : Bool := size > 0

/-- The declared size of a dimension, if it is known. -/
def knownHint? (hint : List Int) (d : Nat) : Option Int :=
  match hint[d]? with
  | some size => if isKnownSize size then some size else none
  | none => none

def say (text : String) : Tracked ArrayShape Unit :=
  Tracked.say .dimension text

/-- The number of subscripts on which all valid element accesses agree, zero if there is none. -/
def countDimensions (shape : ArrayShape) : Traced Nat := do
  let name ← shape.base.label
  match shape.validElements with
  | [] =>
    Traced.say .dimension s!"no valid element found for {name}"
    return 0
  | el :: els =>
    let n := el.subscripts.length
    if els.all fun e => e.subscripts.length = n then return n
    Traced.say .dimension s!"subscript counts disagree for {name}"
    return 0

/-- Take the size of dimension `d` from the declaration. -/
def setHinted (width : Int) (d : Nat) (size : Int) : Tracked ArrayShape Unit := do
  let e ← Expr.ofInt size width
  modify fun shape => shape.setSize d e true

/-- Take the sizes of the trailing dimensions below `n` from the declaration, as far as they are
known; the number of dimensions that are left. -/
def setTrailing (width : Int) (hint : List Int) : Nat → Tracked ArrayShape Nat
  | 0 => return 0
  | d + 1 => do
    match knownHint? hint d with
    | some size =>
      setHinted width d size
      setTrailing width hint d
    | none => return d + 1

/-- The subscripts of the dimensions `d - 1` down to `0` of an access. -/
def outerSubscripts (el : Element) : Nat → Except Fault (List Expr)
  | 0 => .ok []
  | d + 1 => do
    let s ← itemAt el.subscripts d
    let rest ← outerSubscripts el d
    return s :: rest

/-- The subscripts that the size of dimension `d` has to divide. -/
def dividedSubscripts (shape : ArrayShape) (d : Nat) : Except Fault (List Expr) := do
  let parts ← shape.validElements.mapM fun el => outerSubscripts el d
  return parts.flatten

/-- The size of dimension `d` that the subscripts suggest; `inner` is the product of the inner
sizes. -/
def estimateSize (settings : Settings) (width : Int) (shape : ArrayShape) (d : Nat) (inner : Expr) :
    Traced Expr := do
  let subs ← dividedSubscripts shape d
  subs.forM fun e => do
    let t ← e.text
    Traced.say .dimension s!"use for GCD computation: {t}"
  if subs.isEmpty then return ← Expr.zero width
  let g ← Expr.commonDivisor settings subs
  let (size, rest) ← Expr.quotRem settings.indexWidth g inner
  let a ← g.text
  let b ← inner.text
  let q ← size.text
  let r ← rest.text
  Traced.say .dimension
    s!"GCD: {a}, product of sizes of previous dimensions: {b}, quotient {q}, remainder {r}"
  return size

/-- Leave the dimensions from `d` on open as far as the declaration does not tell them; `count` of
them are outside of the first. -/
def leaveOpen (width : Int) (hint : List Int) : (count d : Nat) → Tracked ArrayShape Unit
  | 0, _ => return
  | count + 1, d => do
    match knownHint? hint d with
    | some size => setHinted width d size
    | none => modify fun shape => shape.setSize d .uncomputable false
    leaveOpen width hint count (d + 1)

/-- Find the sizes of the dimensions from `d` down to `1`. -/
def findSizesFrom (settings : Settings) (width : Int) (hint : List Int) :
    (d : Nat) → (inner : Expr) → Tracked ArrayShape Unit
  | 0, _ => modify markSized
  | k + 1, inner => do
    let d := k + 1
    say s!"process dimension {d}"
    let size ← match knownHint? hint d with
      | some size => Expr.ofInt size width
      | none => do
        let shape ← get
        estimateSize settings width shape d inner
    if size.isZero || size = .uncomputable then
      say s!"could not compute size of dimension {d}"
      modify fun shape => shape.setSize d .uncomputable false
      leaveOpen width hint k 1
    else
      modify fun shape => shape.setSize d size (knownHint? hint d).isSome
      let t ← size.text
      say s!"dimension size is {t}"
      let factor ← Expr.resize width size
      let inner ← Expr.productOf settings.indexWidth [inner, factor]
      findSizesFrom settings width hint k inner

/-- The sizes of all inner dimensions, from the one with number `last` on. -/
def findInnerSizes (settings : Settings) (width : Int) (hint : List Int) (last : Nat) :
    Tracked ArrayShape Unit := do
  say "compute non-constant dimension sizes"
  let one ← Expr.one width
  findSizesFrom settings width hint last one

/-- Infer the sizes of the dimensions; `hint` holds the declared ones, and is empty where there is
no declaration. -/
def findSizes (settings : Settings) (width : Int) (hint : List Int) : Tracked ArrayShape Unit := do
  let shape ← get
  let name ← shape.base.label
  say s!"compute sizes of dimensions for {name}"
  let n := shape.dims.length
  if n = 0 then
    let n ← countDimensions shape
    if n = 0 then
      say s!"unable to determine number of dimensions for {name}"
    else
      modify fun shape => shape.withDimensions n
      say s!"extract number of dimensions from subscripts: {n}"
      findInnerSizes settings width [] (n - 1)
  else if hint.length ≠ n then throw .incompleteHint
  else
    let left ← setTrailing width hint n
    if left = 0 then
      say "all dimensions have constant sizes"
      modify markSized
    else
      match knownHint? hint 0 with
      | some size => setHinted width 0 size
      | none => pure ()
      findInnerSizes settings width hint (left - 1)

end ShapeRecovery.ArrayShape
