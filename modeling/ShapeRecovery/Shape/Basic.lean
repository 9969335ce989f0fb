import ShapeRecovery.Memory.Access

namespace ShapeRecovery

/-- A dimension of an array; `hinted` says that its size comes from a declaration. -/
structure Dimension where
  size : Expr
  hinted : Bool
deriving DecidableEq

/-- One access of an array. Until the subscripts are normalized, that of a dimension is scaled by
the sizes of the inner ones. -/
structure Element where
  ptr : Pointer
  subscripts : List Expr
  isElement : Bool
  isValid : Bool
deriving DecidableEq

structure ArrayShape where
  base : Pointer
  dims : List Dimension
  elements : List Element
  /-- The sizes of all inner dimensions were found. -/
  sized : Bool
  /-- Some access has a subscript, so the object is no scalar. -/
  subscripted : Bool
deriving DecidableEq

namespace Dimension

def unknown : Dimension := ⟨.uncomputable, false⟩

end Dimension

/-- The position `i` in a list of `n` items; a negative one counts from the end. -/
def position? (n : Nat) (i : Int) : Option Nat :=
  let k := if i < 0 then i + n else i
  if 0 ≤ k ∧ k < n then some k.toNat else none

/-- The item at position `i`; a negative one counts from the end. -/
def itemAt {α : Type} (xs : List α) (i : Int) : Except Fault α :=
  match (position? xs.length i).bind (xs[·]?) with
  | some x => .ok x
  | none => .error .noSuchItem

namespace Element

/-- Truth values as listings show them. -/
def flagText : Bool → String
  | true => "True"
  | false => "False"

def repr (el : Element) : Except Fault String := do
  let row ← Expr.textList el.subscripts
  let p ← el.ptr.text
  let subs := Text.bracketed row
  let single := flagText el.isElement
  let valid := flagText el.isValid
  return s!"Element({p}, {subs}, is_element={single}, is_valid={valid})"

end Element

namespace ArrayShape

/-- An array without dimensions and accesses. -/
def ofBase (base : Pointer) : ArrayShape :=
  ⟨base, [], [], false, false⟩

/-- Forget all sizes and have `n` dimensions. -/
def withDimensions (shape : ArrayShape) (n : Nat) : ArrayShape :=
  { shape with dims := List.replicate n .unknown }

/-- As `withDimensions`, for a number that may be negative. -/
def withDimensions? (shape : ArrayShape) (n : Int) : Except Fault ArrayShape :=
  if n < 0 then .error .negativeDimensionCount else .ok (shape.withDimensions n.toNat)

def sizes (shape : ArrayShape) : List Expr :=
  shape.dims.map Dimension.size

def setSize (shape : ArrayShape) (d : Nat) (size : Expr) (hinted : Bool) : ArrayShape :=
  { shape with dims := shape.dims.set d ⟨size, hinted⟩ }

/-- As `setSize`, at a position that may be negative or past the end. -/
def setSizeAt (shape : ArrayShape) (i : Int) (size : Expr) (hinted : Bool) :
    Except Fault ArrayShape :=
  match position? shape.dims.length i with
  | some d => .ok (shape.setSize d size hinted)
  | none => .error .noSuchSlot

def addElement (shape : ArrayShape) (el : Element) : ArrayShape :=
  { shape with elements := shape.elements ++ [el] }

def markSized (shape : ArrayShape) : ArrayShape :=
  { shape with sized := true }

def markSubscripted (shape : ArrayShape) : ArrayShape :=
  { shape with subscripted := true }

/-- The form for reading: the base and the sizes. -/
def text (shape : ArrayShape) : Except Fault String := do
  let row ← Expr.textList shape.sizes
  let name ← shape.base.label
  return name ++ Text.bracketed row

/-- The accesses that sizes are inferred from. -/
def validElements (shape : ArrayShape) : List Element :=
  shape.elements.filter fun el => el.isElement && el.isValid

end ArrayShape

end ShapeRecovery
