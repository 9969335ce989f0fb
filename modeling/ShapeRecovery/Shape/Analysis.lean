import ShapeRecovery.Shape.Collection
import ShapeRecovery.Shape.Sizes
import ShapeRecovery.Shape.Subscripts
import ShapeRecovery.Shape.Summary

namespace ShapeRecovery

/-- Where declared sizes come from. -/
inductive HintSource
  /-- The declarations of memory objects. -/
  | declarations
  /-- A table of base objects; of two entries for one base the last holds. -/
  | table (entries : List (Pointer × Option (List Int)))
  | function (hint : Hint)
  /-- Something else was given, shown as `value`. -/
  | refused (value : String)

namespace HintSource

def hint : HintSource → Except Fault Hint
  | declarations => .ok Pointer.declaredSizes
  | table entries => .ok fun base =>
    ((entries.reverse.find? fun entry => entry.1 = base).map Prod.snd).join
  | function hint => .ok hint
  | refused value => .error (.badHint value)

end HintSource

/-- The arrays of a function, and the base objects that the hint was asked about. -/
structure Analysis where
  registry : Registry
  asked : List Pointer
deriving DecidableEq

namespace Analysis

/-- Infer the sizes of one array and normalize its subscripts if all inner sizes were found. -/
def recover (settings : Settings) (width : Int) (hint : List Int) (shape : ArrayShape) :
    Traced ArrayShape := do
  let shape ← Tracked.finalState (ArrayShape.findSizes settings width hint) shape
  if shape.sized then
    Tracked.finalState (ArrayShape.normalize settings width) shape
  else
    let name ← shape.base.label
    Traced.say .analysis s!"unable to delinearize {name}"
    return shape

def recoverAll (settings : Settings) (width : Int) (c : Collection) :
    List ArrayShape → Traced (List ArrayShape)
  | [] => return []
  | shape :: rest => do
    let shape ← recover settings width ((c.hintOf? shape.base).getD []) shape
    let others ← recoverAll settings width c rest
    return shape :: others

/-- The arrays that `accesses` refer to. `width` is the number of bits of indices, by default that
of the settings. An entry of the list may be the refusal of what was given in the place of an
access. -/
def ofAccesses (settings : Settings) (source : HintSource) (width : Option Int)
    (accesses : List (Except Fault Access)) : Traced Analysis := do
  let hint ← source.hint
  let width := width.getD settings.indexWidth
  let c ← Collection.ofAccesses hint width accesses
  let arrays ← recoverAll settings width c c.registry.arrays
  let registry := Registry.fillPlaces { c.registry with arrays }
  if settings.trace then
    let text ← registry.listing settings.indexWidth
    Traced.say .analysis text
  return ⟨registry, c.asked⟩

/-- The arrays that a function accesses. -/
def ofFunction (settings : Settings) (source : HintSource) (width : Option Int) (f : Function) :
    Traced Analysis := do
  Traced.say .analysis s!"delinearize accesses of {f.name}"
  ofAccesses settings source width (f.accesses.map .ok)

end Analysis

end ShapeRecovery
