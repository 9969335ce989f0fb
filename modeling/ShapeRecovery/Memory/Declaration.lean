import ShapeRecovery.Symbol
import ShapeRecovery.Text.Quoted

namespace ShapeRecovery

/-- A declared number of elements: an integer, or a symbol where it varies. -/
inductive Extent
  | fixed (count : Int)
  | varying (count : Symbol)
deriving DecidableEq, Repr

inductive Declaration
  | scalar
  | pointer (elem : Declaration)
  | array (counts : List Extent) (elem : Declaration)
deriving DecidableEq, Repr

namespace Extent

def repr : Extent → String
  | fixed n => toString n
  | varying s => s.repr

/-- The size that stands for an unknown one. -/
def unknownSize : Int := -1

/-- The size of a dimension of this extent; only a fixed count that is not negative is known. -/
def size : Extent → Int
  | fixed n => if n ≥ 0 then n else unknownSize
  | varying _ => unknownSize

end Extent

namespace Declaration

def repr : Declaration → String
  | scalar => "Scalar()"
  | pointer elem => s!"Pointer(elem={repr elem})"
  | array counts elem =>
    s!"ArrayOf(counts={Text.bracketed (counts.map Extent.repr)},elem={repr elem})"

/-- The sizes of the dimensions.  A pointer is an array of unknown length, whose elements may be
arrays. -/
def sizes : Declaration → List Int
  | scalar => []
  | pointer (array counts _) => Extent.unknownSize :: counts.map Extent.size
  | pointer _ => [Extent.unknownSize]
  | array counts _ => counts.map Extent.size

end Declaration

end ShapeRecovery
