import ShapeRecovery.Expr.Order
import ShapeRecovery.Word

namespace ShapeRecovery.Expr

/-- The constant `v`, reduced to the signed range of `bits` bits. -/
def ofInt (v bits : Int) : Except Fault Expr := do
  let v ← Word.signed v bits
  return const v bits

def zero (bits : Int) : Except Fault Expr := ofInt 0 bits

def one (bits : Int) : Except Fault Expr := ofInt 1 bits

/-- The width of the first operand that has one, else the default width `iw`. -/
def commonWidth (iw : Int) : List Expr → Except Fault Int
  | [] => .ok iw
  | e :: es => do
    match ← e.width with
    | some w => return w
    | none => commonWidth iw es

/-- The operands of `op`, with those of nested `op` nodes in the place of the node. -/
def flatten (op : Nary) : List Expr → List Expr
  | [] => []
  | nary o es :: rest => (if o = op then es else [nary o es]) ++ flatten op rest
  | e :: rest => e :: flatten op rest

/-- The recurrence `{start,+,step}` over a loop; it stands still if the step is zero. -/
def recur (start step : Expr) (l : Loop) : Expr :=
  if start = uncomputable || step = uncomputable then uncomputable
  else if step.isZero then start
  else recurrence start step l

/-- The number of iterations that `l` has made so far, as a word of `bits` bits. -/
def inductionVariable (l : Loop) (bits : Int) : Except Fault Expr := do
  let start ← zero bits
  let step ← one bits
  return recur start step l

/-- What an operator over fewer than two operands counts by itself. -/
def padding (ops : List Expr) : Nat :=
  if ops.length < 2 then 1 else 0

mutual

/-- The number of leaves that would be left if every product were multiplied out over the sums and
recurrences in it.  It bounds how deep sums and products can go on calling each other. -/
def weight : Expr → Nat
  | const .. | unknown .. | uncomputable => 1
  | nary .sum ops => padding ops + weightSum ops
  | nary .product ops => padding ops + weightProduct ops
  | nary .signedMax ops | nary .unsignedMax ops => 1 + weightSum ops
  | quotient lhs rhs => 1 + weight lhs + weight rhs
  | cast _ arg _ => weight arg
  | recurrence start step _ => 1 + weight start + weight step

def weightSum : List Expr → Nat
  | [] => 0
  | e :: es => weight e + weightSum es

def weightProduct : List Expr → Nat
  | [] => 1
  | e :: es => weight e * weightProduct es

end

end ShapeRecovery.Expr
