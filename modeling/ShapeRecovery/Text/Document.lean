import ShapeRecovery.Text.Quoted

namespace ShapeRecovery

inductive Document
  | text (s : String)
  | flag (b : Bool)
  | list (items : List Document)
  | record (fields : List (String × Document))
deriving Repr, Inhabited

namespace Document

/-- How a document is printed: on one line, or indented by a text per level; with the fields of
records in their order or sorted by name; with characters beyond ASCII escaped or as they are. -/
structure Style where
  indent : Option String
  sortFields : Bool
  asciiOnly : Bool
deriving DecidableEq, Repr

/-- A code unit of sixteen bits as an escape. -/
def escapeUnit (n : Nat) : List Char :=
  '\\' :: 'u' :: Text.hexDigits 4 n

/-- A character as one escape, or two where it needs two code units. -/
def escapeChar (c : Char) : List Char :=
  let n := c.toNat
  if n < 0x10000 then escapeUnit n
  else
    let k := n - 0x10000
    escapeUnit (0xD800 + k / 0x400) ++ escapeUnit (0xDC00 + k % 0x400)

def writeChar (asciiOnly : Bool) (c : Char) : List Char :=
  if c = '"' || c = '\\' then ['\\', c]
  else if c = '\n' then ['\\', 'n']
  else if c = '\r' then ['\\', 'r']
  else if c = '\t' then ['\\', 't']
  else if c = '\x08' then ['\\', 'b']
  else if c = '\x0c' then ['\\', 'f']
  else if c < ' ' then escapeChar c
  else if asciiOnly && c > '~' then escapeChar c
  else [c]

def writeText (asciiOnly : Bool) (s : String) : String :=
  String.ofList ('"' :: s.toList.flatMap (writeChar asciiOnly) ++ ['"'])

/-- Insert a field before the first one whose name is not smaller. -/
def insertField {α : Type} (f : String × α) : List (String × α) → List (String × α)
  | [] => [f]
  | g :: rest => if g.1 < f.1 then g :: insertField f rest else f :: g :: rest

def sortFields {α : Type} (fields : List (String × α)) : List (String × α) :=
  fields.foldr insertField []

/-- A new line at a level, or nothing where all is on one line. -/
def Style.breakAt (style : Style) (level : Nat) : String :=
  match style.indent with
  | none => ""
  | some unit => "\n" ++ String.join (List.replicate level unit)

/-- What separates two items at a level. -/
def Style.separator (style : Style) (level : Nat) : String :=
  match style.indent with
  | none => ", "
  | some _ => "," ++ style.breakAt level

/-- Items between brackets; nothing at all between them where there are no items. -/
def Style.enclose (style : Style) (level : Nat) (left right : String) (items : List String) :
    String :=
  if items.isEmpty then left ++ right
  else left ++ style.breakAt (level + 1) ++ (style.separator (level + 1)).intercalate items
    ++ style.breakAt level ++ right

mutual

/-- The printed form of a document that stands at a level. -/
def print (style : Style) (level : Nat) : Document → String
  | text s => writeText style.asciiOnly s
  | flag b => if b then "true" else "false"
  | list items => style.enclose level "[" "]" (printItems style (level + 1) items)
  | record fields =>
    let printed := printFields style (level + 1) fields
    let chosen := if style.sortFields then sortFields printed else printed
    style.enclose level "\x7b" "\x7d"
      (chosen.map fun (name, body) => writeText style.asciiOnly name ++ ": " ++ body)

def printItems (style : Style) (level : Nat) : List Document → List String
  | [] => []
  | d :: ds => print style level d :: printItems style level ds

/-- The fields with their values printed. -/
def printFields (style : Style) (level : Nat) : List (String × Document) → List (String × String)
  | [] => []
  | (name, d) :: rest => (name, print style level d) :: printFields style level rest

end

end Document

end ShapeRecovery
