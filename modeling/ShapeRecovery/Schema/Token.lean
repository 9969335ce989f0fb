import ShapeRecovery.Text.Letter
import ShapeRecovery.Text.Line
import ShapeRecovery.Text.Name

namespace ShapeRecovery.Schema

inductive TokenKind
  | constructorName
  | typeName
  | equals
  | comma
  | question
  | pipe
  | asterisk
  | leftParen
  | rightParen
  | leftBrace
  | rightBrace
  /-- Anything else; a grammar is refused where such a token is read. -/
  | invalid
deriving DecidableEq, Repr

namespace TokenKind

/-- The number of a kind in messages. -/
def number : TokenKind → Nat
  | constructorName => 0
  | typeName => 1
  | equals => 2
  | comma => 3
  | question => 4
  | pipe => 5
  | asterisk => 6
  | leftParen => 7
  | rightParen => 8
  | leftBrace => 9
  | rightBrace => 10
  | invalid => 11

def ofOperator : List Char → TokenKind
  | ['='] => equals
  | [','] => comma
  | ['?'] => question
  | ['|'] => pipe
  | ['*'] => asterisk
  | ['('] => leftParen
  | [')'] => rightParen
  | ['\x7b'] => leftBrace
  | ['\x7d'] => rightBrace
  | _ => invalid

/-- Names are told apart by their first letter. -/
def ofText : List Char → TokenKind
  | [] => invalid
  | c :: cs =>
    if Text.isLetter c then if Text.isUpperLetter c then constructorName else typeName
    else ofOperator (c :: cs)

end TokenKind

structure Token where
  kind : TokenKind
  text : String
  line : Nat
deriving DecidableEq, Repr

namespace Token

def ofText (line : Nat) (cs : List Char) : Token :=
  ⟨TokenKind.ofText cs, String.ofList cs, line⟩

/-- The tokens of one line.  `word` holds what was read of a word, backwards. -/
def ofLine (line : Nat) (word : List Char) : List Char → List Token
  | [] => if word.isEmpty then [] else [ofText line word.reverse]
  | c :: rest =>
    if Text.isWordChar c then ofLine line (c :: word) rest
    else
      let before := if word.isEmpty then [] else [ofText line word.reverse]
      before ++
        if Text.isBlank c then ofLine line [] rest
        else if c = '-' && rest.head? = some '-' then []
        else ofText line [c] :: ofLine line [] rest

/-- The tokens of a text, line by line. -/
def ofString (text : String) : List Token :=
  ((Text.splitLines [] text.toList).zipIdx 1).flatMap fun (cs, line) => ofLine line [] cs

end Token

end ShapeRecovery.Schema
