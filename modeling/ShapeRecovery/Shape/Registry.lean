import ShapeRecovery.Shape.Basic

namespace ShapeRecovery

/-- Where an access stands: the base of its array and its number among the array's accesses. -/
structure Place where
  base : Pointer
  number : Nat
deriving DecidableEq

structure Registry where
  arrays : List ArrayShape
  places : List (Pointer × Place)
deriving DecidableEq

namespace Registry

def empty : Registry := ⟨[], []⟩

def find? (r : Registry) (base : Pointer) : Option ArrayShape :=
  r.arrays.find? fun shape => shape.base = base

/-- The number of the array of `base`, in the order of first sight. -/
def indexOf? (r : Registry) (base : Pointer) : Option Nat :=
  r.arrays.findIdx? fun shape => shape.base = base

/-- Have an array for `base`; a new one comes last. -/
def ensure (r : Registry) (base : Pointer) : Registry :=
  match r.find? base with
  | some _ => r
  | none => { r with arrays := r.arrays ++ [ArrayShape.ofBase base] }

/-- Change the array of `base`. -/
def update (r : Registry) (base : Pointer) (f : ArrayShape → ArrayShape) : Registry :=
  { r with arrays := r.arrays.map fun shape => if shape.base = base then f shape else shape }

def remove (r : Registry) (base : Pointer) : Registry :=
  { r with arrays := r.arrays.filter fun shape => shape.base ≠ base }

/-- As `remove`, refused where there is no array of `base`. -/
def remove? (r : Registry) (base : Pointer) : Except Fault Registry :=
  match r.find? base with
  | some _ => .ok (r.remove base)
  | none => .error (.missingKey base.repr)

/-- The places of the accesses of one array. -/
def placesOf (shape : ArrayShape) : List (Pointer × Place) :=
  shape.elements.zipIdx.map fun (el, k) => (el.ptr, ⟨shape.base, k⟩)

/-- Build the index anew. -/
def fillPlaces (r : Registry) : Registry :=
  { r with places := r.arrays.flatMap placesOf }

/-- The first access through `ptr` that the index knows. -/
def findPlace? (r : Registry) (ptr : Pointer) : Option Place :=
  (r.places.find? fun entry => entry.1 = ptr).map Prod.snd

/-- The array and the access that `ptr` belongs to. -/
def findElement? (r : Registry) (ptr : Pointer) : Option (ArrayShape × Element) := do
  let place ← r.findPlace? ptr
  let shape ← r.find? place.base
  let el ← shape.elements[place.number]?
  return (shape, el)

end Registry

end ShapeRecovery
