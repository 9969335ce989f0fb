import ShapeRecovery.Expr.Algebra
import ShapeRecovery.Expr.Maximum
import ShapeRecovery.Expr.Cast

namespace ShapeRecovery.Expr

def nth (ops : List Expr) (k : Nat) : Except Fault Expr :=
  match ops[k]? with
  | some e => .ok e
  | none => .error .noSuchItem

/-- A canonical expression of the kind of `e` over the operands `ops`. -/
def withOperands (iw : Int) (e : Expr) (ops : List Expr) : Except Fault Expr :=
  match e with
  | nary .sum _ => sumOf iw ops
  | nary .product _ => productOf iw ops
  | nary .signedMax _ => signedMaximum iw ops
  | nary .unsignedMax _ => unsignedMaximum iw ops
  | quotient .. => do
    let lhs ← nth ops 0
    let rhs ← nth ops 1
    unsignedQuotient lhs rhs
  | cast kind _ bits => do
    let arg ← nth ops 0
    convert kind bits arg
  | recurrence _ _ l => do
    let start ← nth ops 0
    let step ← nth ops 1
    return recur start step l
  | const .. | unknown .. | uncomputable =>
    if ops.isEmpty then .ok e else .error .tooManyOperands

mutual

/-- Replace subexpressions, the outermost ones that `env` knows, and rebuild what lies above them.
-/
def substitute (iw : Int) (env : Expr → Option Expr) (e : Expr) : Except Fault Expr :=
  match env e with
  | some replacement => .ok replacement
  | none =>
    match e with
    | const .. | unknown .. | uncomputable | nary _ [] => .ok e
    | nary op ops => do
      let ops ← substituteList iw env ops
      withOperands iw (nary op ops) ops
    | quotient lhs rhs => do
      let a ← substitute iw env lhs
      let b ← substitute iw env rhs
      withOperands iw e [a, b]
    | cast _ arg _ => do
      let a ← substitute iw env arg
      withOperands iw e [a]
    | recurrence start step _ => do
      let a ← substitute iw env start
      let b ← substitute iw env step
      withOperands iw e [a, b]

def substituteList (iw : Int) (env : Expr → Option Expr) : List Expr → Except Fault (List Expr)
  | [] => .ok []
  | e :: es => do
    let a ← substitute iw env e
    let rest ← substituteList iw env es
    return a :: rest

end

/-- The substitution given by a list of replacements; of two for one expression the last holds. -/
def lookup (pairs : List (Expr × Expr)) (e : Expr) : Option Expr :=
  (pairs.reverse.find? fun p => p.1 = e).map Prod.snd

end ShapeRecovery.Expr
