import ShapeRecovery.Expr.Algebra

namespace ShapeRecovery.Expr

/-- The keys of neighbours do not fall. -/
def KeysRise : List Expr → Prop
  | a :: b :: rest =>
    (∃ k k', a.orderKey = .ok k ∧ b.orderKey = .ok k' ∧ k'.lt k = false) ∧ KeysRise (b :: rest)
  | _ => True

/-- The operator of a node with a list of operands. -/
def naryOp? : Expr → Option Nary
  | nary op _ => some op
  | _ => none

/-- What a constant operand must not be. -/
def Trivial : Nary → Int → Prop
  | .sum, v => v = 0
  | .product, v => v = 0 ∨ v = 1
  | _, _ => False

/-- No two terms are multiples of one expression. -/
def Unlike (terms : List Expr) : Prop :=
  terms.Pairwise fun a b =>
    ∀ c d x y, asMultiple a = .ok (c, x) → asMultiple b = .ok (d, y) →
      a.isConst = false → b.isConst = false → x ≠ y

/-- The operands of a canonical node: two or more in order, none that should have been opened, and
at most one constant, which stands first and is not trivial. -/
structure OperandsFit (op : Nary) (ops : List Expr) : Prop where
  several : 2 ≤ ops.length
  rising : KeysRise ops
  opened : ∀ e ∈ ops, e.naryOp? ≠ some op
  constantFirst : ∀ e ∈ ops.tail, e.isConst = false
  notTrivial : ∀ v w, const v w ∈ ops → ¬ Trivial op v
  unlike : op = .sum → Unlike ops

/-- A cast that changes something: its operand is no constant and no cast of its kind. -/
def CastFits (kind : CastKind) : Expr → Prop
  | const .. => False
  | cast kind' .. => kind' ≠ kind
  | _ => True

inductive Canonical : Expr → Prop
  | const (v w : Int) : Canonical (.const v w)
  | unknown (s : Symbol) (w : Int) : Canonical (.unknown s w)
  | nary {op : Nary} {ops : List Expr} (fit : OperandsFit op ops)
      (parts : ∀ e ∈ ops, Canonical e) : Canonical (.nary op ops)
  | quotient {a b : Expr} (lhs : Canonical a) (rhs : Canonical b) : Canonical (.quotient a b)
  | cast {kind : CastKind} {e : Expr} {w : Int} (fit : CastFits kind e) (arg : Canonical e) :
      Canonical (.cast kind e w)
  | recurrence {a b : Expr} {l : Loop} (moves : b.isZero = false) (start : Canonical a)
      (step : Canonical b) : Canonical (.recurrence a b l)
  | uncomputable : Canonical .uncomputable

/-- `f` occurs in the expression, at any depth; it occurs in itself. -/
inductive Occurs (f : Expr) : Expr → Prop
  | here : Occurs f f
  | operand {e g : Expr} (part : g ∈ e.operands) (inside : Occurs f g) : Occurs f e

/-- Recurrences are nested with the innermost loop outside, and stand nowhere else. -/
inductive LoopOrdered : Expr → Prop
  | still {e : Expr} (free : e.loops = []) : LoopOrdered e
  | recurrence {a b : Expr} {l : Loop} (outer : ∀ m ∈ a.loops ++ b.loops, m.lt l)
      (start : LoopOrdered a) (step : LoopOrdered b) : LoopOrdered (.recurrence a b l)

end ShapeRecovery.Expr
