import ShapeRecovery.Expr.Text

namespace ShapeRecovery.Expr

/-- The place of a node's kind in the canonical order. -/
def rank : Expr → Nat
  | const .. => 0
  | unknown .. => 1
  | cast .trunc .. => 2
  | cast .zeroExtend .. => 3
  | cast .signExtend .. => 4
  | quotient .. => 5
  | nary .product _ => 6
  | nary .sum _ => 7
  | nary .signedMax _ => 8
  | nary .unsignedMax _ => 9
  | recurrence .. => 10
  | uncomputable => 11

structure OrderKey where
  rank : Nat
  text : String
  repr : String
deriving DecidableEq, Repr

/-- Keys compare by rank, then by the two texts, code point by code point. -/
def OrderKey.lt (a b : OrderKey) : Bool :=
  a.rank < b.rank || (a.rank = b.rank &&
    (a.text < b.text || (a.text = b.text && a.repr < b.repr)))

def orderKey (e : Expr) : Except Fault OrderKey := do
  let t ← e.text
  return ⟨e.rank, t, e.repr⟩

/-- Insert before the first item with a key that is not smaller. -/
def insertByKey (k : OrderKey) (e : Expr) : List (OrderKey × Expr) → List (OrderKey × Expr)
  | [] => [(k, e)]
  | (k', e') :: rest =>
    if k'.lt k then (k', e') :: insertByKey k e rest else (k, e) :: (k', e') :: rest

/-- The operands in canonical order; operands with one key keep their order. -/
def sorted (ops : List Expr) : Except Fault (List Expr) := do
  let keyed ← ops.mapM fun e => do
    let k ← orderKey e
    return (k, e)
  return (keyed.foldr (fun p acc => insertByKey p.1 p.2 acc) []).map Prod.snd

/-- An operator over its operands in canonical order; a single operand stands for itself. -/
def ordered (op : Nary) (ops : List Expr) : Except Fault Expr := do
  match ← sorted ops with
  | [e] => return e
  | es => return nary op es

end ShapeRecovery.Expr
