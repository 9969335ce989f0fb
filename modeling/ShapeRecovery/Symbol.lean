import ShapeRecovery.Fault
import ShapeRecovery.Text.Name

namespace ShapeRecovery

/-- A uniquely identified name: an unknown value, a loop or a memory object. -/
structure Symbol where
  name : String
  id : Nat
deriving DecidableEq, Repr

namespace Symbol

/-- The symbol `name` with the number `id`, if the name is a valid one. -/
def make (name : String) (id : Nat) : Except Fault Symbol :=
  if Text.isName name then .ok ⟨name, id⟩ else .error (.badName name)

def repr (s : Symbol) : String :=
  s!"{s.name}${s.id}"

/-- Symbols are ordered by name, then by number. -/
def lt (s t : Symbol) : Bool :=
  s.name < t.name || (s.name = t.name && s.id < t.id)

end Symbol

/-- A loop; `depth` orders nested loops, deeper loops are inner ones. -/
structure Loop where
  name : Symbol
  depth : Int
deriving DecidableEq, Repr

namespace Loop

def text (l : Loop) : String :=
  l.name.name

def repr (l : Loop) : String :=
  s!"loop(name={l.name.repr},depth={l.depth})"

/-- Outer loops come first, loops of one depth in the order of their symbols. -/
def lt (l m : Loop) : Bool :=
  l.depth < m.depth || (l.depth = m.depth && l.name.lt m.name)

end Loop

end ShapeRecovery
