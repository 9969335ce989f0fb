import ShapeRecovery.Expr.Constant
import ShapeRecovery.Shape.Registry
import ShapeRecovery.Trace

namespace ShapeRecovery

/-- The declared sizes of the dimensions of a base object; negative where a size is unknown. -/
abbrev Hint := Pointer → Option (List Int)

/-- What is known while accesses are collected. -/
structure Collection where
  registry : Registry
  /-- The sizes told for each base, in the order of the questions. -/
  hints : List (Pointer × List Int)
  /-- The bases that were asked about, in order. -/
  asked : List Pointer
deriving DecidableEq

namespace Collection

def empty : Collection := ⟨.empty, [], []⟩

def hintOf? (c : Collection) (base : Pointer) : Option (List Int) :=
  (c.hints.find? fun entry => entry.1 = base).map Prod.snd

/-- The sizes told for `base`, asked for if this is the first time. -/
def askHint (hint : Hint) (base : Pointer) (c : Collection) :
    Traced (List Int × Collection) := do
  match c.hintOf? base with
  | some sizes => return (sizes, c)
  | none =>
    let sizes := (hint base).getD []
    let name ← base.label
    Traced.say .collection s!"number of array dimensions for {name} is {sizes.length}"
    return (sizes, { c with hints := c.hints ++ [(base, sizes)], asked := c.asked ++ [base] })

/-- The zero subscripts that an access to one element lacks; they may have been folded away. -/
def paddingFor (width : Int) (n : Nat) (kind : AccessKind) (subs : List Expr) :
    Traced (List Expr) := do
  if kind.isElement && subs.length < n then
    let pad := n - subs.length
    let z ← Expr.zero width
    Traced.say .collection s!"add {pad} extra zero subscript(s)"
    return List.replicate pad z
  return []

/-- The entry for an access with the subscripts `subs` to an object of `n` dimensions, zero for an
unknown number. -/
def elementOf (n : Nat) (acc : Access) (subs : List Expr) : Element where
  ptr := acc.ptr
  subscripts := subs
  isElement := acc.kind.isElement
  isValid := !(acc.kind.isElement && 0 < n && subs.length ≠ n)

def describe (n : Nat) (el : Element) : Traced Unit := do
  let verdict := if el.isValid then "valid" else "invalid"
  Traced.say .collection
    s!"number of dimensions {n}, number of subscripts {el.subscripts.length}, element is {verdict}"
  el.subscripts.forM fun s => do
    let t ← s.text
    Traced.say .collection s!"  subscript {t}"

/-- File one access under its base object. -/
def record (hint : Hint) (width : Int) (c : Collection) (acc : Access) : Traced Collection := do
  let p ← acc.ptr.text
  Traced.say .collection s!"process {acc.kind.name} of {p}"
  let base := acc.ptr.accessedObject
  let b ← base.text
  Traced.say .collection s!"strip to base {b}"
  let (sizes, c) ← c.askHint hint base
  let n := sizes.length
  let subs ← chainSubscripts (acc.ptr.outerSteps (if n = 0 then none else some n))
  let shape := (c.registry.find? base).getD ((ArrayShape.ofBase base).withDimensions n)
  if shape.dims.length ≠ n then throw .dimensionCountChanged
  let padding ← paddingFor width n acc.kind subs
  let el := elementOf n acc (padding ++ subs)
  describe n el
  let referenced := !el.subscripts.isEmpty
  let registry := (c.registry.ensure base).update base fun _ =>
    { shape.addElement el with subscripted := shape.subscripted || referenced }
  return { c with registry }

/-- File an access that is no marker, or pass on the refusal of what was given in its place. -/
def recordGiven (hint : Hint) (width : Int) (c : Collection) (given : Except Fault Access) :
    Traced Collection := do
  let acc ← given
  if acc.kind.isIgnored then return c
  record hint width c acc

/-- Drop an object that turned out to be a scalar. -/
def dropIfScalar (c : Collection) (shape : ArrayShape) : Traced Collection := do
  if shape.dims.isEmpty && !shape.subscripted then
    let name ← shape.base.label
    Traced.say .collection s!"not an array {name}"
    return { c with
      hints := c.hints.filter fun entry => entry.1 ≠ shape.base
      registry := c.registry.remove shape.base }
  return c

def dropScalars (c : Collection) : Traced Collection :=
  c.registry.arrays.foldlM dropIfScalar c

/-- The arrays that `accesses` refer to. An entry of the list may be the refusal of what was given
in the place of an access. -/
def ofAccesses (hint : Hint) (width : Int) (accesses : List (Except Fault Access)) :
    Traced Collection := do
  let c ← accesses.foldlM (recordGiven hint width) empty
  dropScalars c

end Collection

end ShapeRecovery
