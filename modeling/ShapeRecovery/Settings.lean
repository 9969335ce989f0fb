import ShapeRecovery.Fault
import ShapeRecovery.Value.Basic

namespace ShapeRecovery

/-- The width of expressions that show none, and whether messages that need extra work are
written. -/
structure Settings where
  indexWidth : Int
  trace : Bool
deriving DecidableEq, Repr

namespace Settings

variable {ν : Type}

/-- Indices of 64 bits, and no extra messages. -/
def default : Settings := ⟨64, false⟩

/-- Change the default width; only a positive integer is one. -/
def withIndexWidth (settings : Settings) (nodeRepr : ν → String) (v : Value ν) :
    Except Fault Settings :=
  match v with
  | .int n =>
    if n > 0 then .ok { settings with indexWidth := n } else .error (.badWidth (toString n))
  | v => .error (.badWidth (v.repr nodeRepr))

end Settings

end ShapeRecovery
