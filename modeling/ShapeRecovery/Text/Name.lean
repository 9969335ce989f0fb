import ShapeRecovery.Text.Alphanumeric

namespace ShapeRecovery.Text

def isNameInitial (c : Char) : Bool :=
  c.isAlpha || c = '_'

def isWordChar (c : Char) : Bool :=
  isAlphanumeric c || c = '_'

/-- The rest of a name; one line break may end it. -/
def isNameTail : List Char → Bool
  | [] => true
  | ['\n'] => true
  | c :: rest => (isWordChar c || c = '.') && isNameTail rest

def isName (s : String) : Bool :=
  match s.toList with
  | [] => false
  | c :: rest => isNameInitial c && isNameTail rest

end ShapeRecovery.Text
