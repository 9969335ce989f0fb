import ShapeRecovery.Expr.Basic
import ShapeRecovery.Text.Quoted

namespace ShapeRecovery

namespace Nary

/-- What stands between two operands in the readable form. -/
def separator : Nary → String
  | sum => " + "
  | product => " * "
  | signedMax => " smax "
  | unsignedMax => " umax "

def label : Nary → String
  | sum => "Add"
  | product => "Mul"
  | signedMax => "SMax"
  | unsignedMax => "UMax"

end Nary

namespace CastKind

def word : CastKind → String
  | trunc => "trunc"
  | signExtend => "sext"
  | zeroExtend => "zext"

def label : CastKind → String
  | trunc => "Trunc"
  | signExtend => "SExt"
  | zeroExtend => "ZExt"

end CastKind

namespace Expr

/-- The type of a value of `bits` bits, as casts show it. -/
def widthText : Option Int → String
  | some bits => s!"i{bits}"
  | none => "iNone"

mutual

/-- The readable form.  A cast shows the width of its operand, so it has none if the operand has no
defined width. -/
def text : Expr → Except Fault String
  | const v _ => .ok (toString v)
  | unknown s _ => .ok s!"%{s.name}"
  | nary op ops => do
    let parts ← textList ops
    return "(" ++ op.separator.intercalate parts ++ ")"
  | quotient lhs rhs => do
    let a ← text lhs
    let b ← text rhs
    return s!"({a} /u {b})"
  | cast kind arg bits => do
    let w ← arg.width
    let a ← text arg
    return s!"({kind.word} {widthText w} {a} to i{bits})"
  | recurrence start step l => do
    let a ← text start
    let b ← text step
    return s!"\x7b{a},+,{b}\x7d<{l.text}>"
  | uncomputable => .ok "***COULDNOTCOMPUTE***"

def textList : List Expr → Except Fault (List String)
  | [] => .ok []
  | e :: es => do
    let a ← text e
    let rest ← textList es
    return a :: rest

end

mutual

/-- The complete form. -/
def repr : Expr → String
  | const v bits => s!"Const(val={v},bits={bits})"
  | unknown s bits => s!"Unknown(name={s.repr},bits={bits})"
  | nary op ops => s!"{op.label}(ops={Text.bracketed (reprList ops)})"
  | quotient lhs rhs => s!"UDiv(lhs={repr lhs},rhs={repr rhs})"
  | cast kind arg bits => s!"{kind.label}(op={repr arg},bits={bits})"
  | recurrence start step l => s!"AddRec(start={repr start},step={repr step},loop={l.repr})"
  | uncomputable => "CouldNotCompute()"

def reprList : List Expr → List String
  | [] => []
  | e :: es => repr e :: reprList es

end

end Expr

end ShapeRecovery
