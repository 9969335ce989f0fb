import ShapeRecovery.Symbol

namespace ShapeRecovery

/-- Operators that take a list of operands. -/
inductive Nary
  | sum
  | product
  | signedMax
  | unsignedMax
deriving DecidableEq, Repr

/-- Changes of width. -/
inductive CastKind
  | trunc
  | signExtend
  | zeroExtend
deriving DecidableEq, Repr

/-- A value in `start + step * n`, where `n` counts the iterations of `loop`, is a `recurrence`. -/
inductive Expr
  | const (val bits : Int)
  | unknown (name : Symbol) (bits : Int)
  | nary (op : Nary) (ops : List Expr)
  | quotient (lhs rhs : Expr)
  | cast (kind : CastKind) (arg : Expr) (bits : Int)
  | recurrence (start step : Expr) (loop : Loop)
  | uncomputable
deriving Repr, Inhabited

namespace Expr

abbrev sum (ops : List Expr) : Expr := nary .sum ops

abbrev product (ops : List Expr) : Expr := nary .product ops

mutual

/-- Two expressions are the same when they are built alike. -/
def beq : Expr → Expr → Bool
  | const v w, const v' w' => v == v' && w == w'
  | unknown s w, unknown s' w' => s == s' && w == w'
  | nary o es, nary o' es' => o == o' && beqList es es'
  | quotient a b, quotient a' b' => beq a a' && beq b b'
  | cast k e w, cast k' e' w' => k == k' && w == w' && beq e e'
  | recurrence s t l, recurrence s' t' l' => l == l' && beq s s' && beq t t'
  | uncomputable, uncomputable => true
  | _, _ => false

def beqList : List Expr → List Expr → Bool
  | [], [] => true
  | e :: es, e' :: es' => beq e e' && beqList es es'
  | _, _ => false

end

instance : BEq Expr := ⟨beq⟩

mutual

theorem eq_of_beq : ∀ a b : Expr, beq a b = true → a = b
  | const .., b, h => by cases b <;> simp_all [beq]
  | unknown .., b, h => by cases b <;> simp_all [beq]
  | nary _ es, b, h => by
    cases b with
    | nary o' es' =>
      simp only [beq, Bool.and_eq_true, beq_iff_eq] at h
      rw [h.1, eq_of_beqList es es' h.2]
    | _ => simp [beq] at h
  | quotient a a', b, h => by
    cases b with
    | quotient b b' =>
      simp only [beq, Bool.and_eq_true] at h
      rw [eq_of_beq a b h.1, eq_of_beq a' b' h.2]
    | _ => simp [beq] at h
  | cast _ a _, b, h => by
    cases b with
    | cast _ b _ =>
      simp only [beq, Bool.and_eq_true, beq_iff_eq] at h
      rw [h.1.1, h.1.2, eq_of_beq a b h.2]
    | _ => simp [beq] at h
  | recurrence a a' _, b, h => by
    cases b with
    | recurrence b b' _ =>
      simp only [beq, Bool.and_eq_true, beq_iff_eq] at h
      rw [h.1.1, eq_of_beq a b h.1.2, eq_of_beq a' b' h.2]
    | _ => simp [beq] at h
  | uncomputable, b, h => by cases b <;> simp_all [beq]

theorem eq_of_beqList : ∀ as bs : List Expr, beqList as bs = true → as = bs
  | [], [], _ => rfl
  | [], _ :: _, h => by simp [beqList] at h
  | _ :: _, [], h => by simp [beqList] at h
  | a :: as, b :: bs, h => by
    simp only [beqList, Bool.and_eq_true] at h
    rw [eq_of_beq a b h.1, eq_of_beqList as bs h.2]

end

mutual

theorem beq_self : ∀ a : Expr, beq a a = true
  | const .. => by simp [beq]
  | unknown .. => by simp [beq]
  | nary _ es => by simp [beq, beqList_self es]
  | quotient a b => by simp [beq, beq_self a, beq_self b]
  | cast _ a _ => by simp [beq, beq_self a]
  | recurrence a b _ => by simp [beq, beq_self a, beq_self b]
  | uncomputable => by simp [beq]

theorem beqList_self : ∀ as : List Expr, beqList as as = true
  | [] => rfl
  | a :: as => by simp [beqList, beq_self a, beqList_self as]

end

instance : LawfulBEq Expr where
  eq_of_beq := eq_of_beq _ _
  rfl := beq_self _

instance : DecidableEq Expr := fun a b =>
  if h : a == b then .isTrue (eq_of_beq a b h) else .isFalse fun e => h (e ▸ beq_self a)

/-- The number of bits of an expression, none if it is not computable.  An operator has the width of
its first operand. -/
def width : Expr → Except Fault (Option Int)
  | const _ bits | unknown _ bits | cast _ _ bits => .ok (some bits)
  | nary _ [] => .error .noSuchItem
  | nary _ (e :: _) => width e
  | quotient lhs _ => width lhs
  | recurrence start _ _ => width start
  | uncomputable => .ok none

def isZero : Expr → Bool
  | const v _ => v == 0
  | _ => false

def isOne : Expr → Bool
  | const v _ => v == 1
  | _ => false

def isConst : Expr → Bool
  | const .. => true
  | _ => false

def isRecurrence : Expr → Bool
  | recurrence .. => true
  | _ => false

def operands : Expr → List Expr
  | nary _ ops => ops
  | quotient lhs rhs => [lhs, rhs]
  | cast _ arg _ => [arg]
  | recurrence start step _ => [start, step]
  | const .. | unknown .. | uncomputable => []

mutual

/-- The loops whose iteration counts an expression depends on, one entry per occurrence. -/
def loops : Expr → List Loop
  | const .. | unknown .. | uncomputable => []
  | nary _ ops => loopsOfList ops
  | quotient lhs rhs => loops lhs ++ loops rhs
  | cast _ arg _ => loops arg
  | recurrence start step l => l :: (loops start ++ loops step)

def loopsOfList : List Expr → List Loop
  | [] => []
  | e :: es => loops e ++ loopsOfList es

end

def dependsOn (e : Expr) (l : Loop) : Bool :=
  e.loops.contains l

end Expr

namespace Loop

/-- Insert a loop into a list ordered from outer to inner loops; a loop already there is kept
once. -/
def insertOrdered (l : Loop) : List Loop → List Loop
  | [] => [l]
  | m :: ms => if l = m then m :: ms else if l.lt m then l :: m :: ms else m :: insertOrdered l ms

/-- The distinct loops of a list, from outer to inner ones. -/
def ordered (ls : List Loop) : List Loop :=
  ls.foldr insertOrdered []

end Loop

end ShapeRecovery
