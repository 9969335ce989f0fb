import ShapeRecovery.Expr.Basic
import ShapeRecovery.Word

namespace ShapeRecovery.Expr

structure Valuation where
  /-- The value of an unknown of a width. -/
  unknown : Symbol → Int → Int
  /-- The number of iterations that a loop has made. -/
  count : Loop → Int
  /-- The quotient of a word by zero, given its number of bits and its unsigned value. -/
  overZero : Int → Int → Int

/-- The width that an expression is read at; zero where it has none. -/
def bits (e : Expr) : Int :=
  match e.width with
  | .ok (some w) => w
  | _ => 0

/-- An integer read as an unsigned word. -/
def readUnsigned (w v : Int) : Int :=
  v % Word.modulus w

/-- An integer read as a signed word. -/
def readSigned (w v : Int) : Int :=
  v.bmod (Word.modulus w)

/-- The greatest of some integers, zero if there is none. -/
def greatestOf : List Int → Int
  | [] => 0
  | v :: vs => vs.foldl max v

mutual

def meaning (ρ : Valuation) : Expr → Int
  | const v _ => v
  | unknown s w => ρ.unknown s w
  | nary .sum ops => (meanings ρ ops).foldr (· + ·) 0
  | nary .product ops => (meanings ρ ops).foldr (· * ·) 1
  | nary .signedMax ops =>
    greatestOf ((meanings ρ ops).map (readSigned (bits (nary .signedMax ops))))
  | nary .unsignedMax ops =>
    greatestOf ((meanings ρ ops).map (readUnsigned (bits (nary .unsignedMax ops))))
  | quotient lhs rhs =>
    let n := readUnsigned (bits lhs) (meaning ρ lhs)
    let d := readUnsigned (bits rhs) (meaning ρ rhs)
    if d = 0 then ρ.overZero (bits lhs) n else n / d
  | cast .trunc arg _ => meaning ρ arg
  | cast .signExtend arg _ => readSigned (bits arg) (meaning ρ arg)
  | cast .zeroExtend arg _ => readUnsigned (bits arg) (meaning ρ arg)
  | recurrence start step l => meaning ρ start + meaning ρ step * ρ.count l
  | uncomputable => 0

def meanings (ρ : Valuation) : List Expr → List Int
  | [] => []
  | e :: es => meaning ρ e :: meanings ρ es

end

theorem meanings_eq_map (ρ : Valuation) (es : List Expr) : meanings ρ es = es.map (meaning ρ) := by
  induction es with
  | nil => rfl
  | cons e es ih => rw [meanings, ih, List.map_cons]

end ShapeRecovery.Expr
