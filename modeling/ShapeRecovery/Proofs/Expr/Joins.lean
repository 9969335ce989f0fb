import ShapeRecovery.Expr.Canonical

namespace ShapeRecovery.Expr

/-- A check of an operator over a list of operands. -/
abbrev Check := List Expr → Bool

/-- The check that depends on a result; where there is no result there is nothing to check. -/
def checkAfter {α : Type} (x : Except Fault α) (f : α → Bool) : Bool :=
  match x with
  | .ok a => f a
  | .error _ => true

@[simp] theorem checkAfter_ok {α : Type} (a : α) (f : α → Bool) : checkAfter (.ok a) f = f a := rfl

/-- `e` is a recurrence over `l`. -/
def runsOver (l : Loop) : Expr → Bool
  | recurrence _ _ m => m = l
  | _ => false

section step

variable (add mul : Build) (addFits mulFits : Check)

def mergePartsFit : List (Expr × Expr) → Bool
  | [_] => true
  | parts => addFits (parts.map Prod.fst) && addFits (parts.map Prod.snd)

def addInvariantFits (moved : List Expr) : Expr → Bool
  | recurrence start _ _ => addFits (start :: moved)
  | e => moved.isEmpty || addFits (e :: moved)

/-- Where terms that change with the innermost loop are left, no steps have cancelled. -/
def joinLikeFits (rest : List Expr) : List (Loop × Expr) → Bool
  | [] => true
  | first :: more =>
    let ((inner, e), others) := takeInnermost first more
    let left := (rest ++ others).filter fun o => o.dependsOn inner
    let moved := (rest ++ others).filter fun o => !o.dependsOn inner
    addInvariantFits addFits moved e &&
      (left.isEmpty || (first :: more).all fun p => p.2.runsOver p.1)

/-- The check of one step of a sum, given those of what the step leaves to do. -/
def sumStepFits (iw : Int) : Check := fun ops =>
  let flat := flatten .sum ops
  checkAfter (commonWidth iw flat) fun w =>
  checkAfter (Terms.ofList flat) fun terms =>
  checkAfter (collectLike add mul w terms) fun like =>
    (terms.recurrences.all fun g => mergePartsFit addFits g.2) &&
      joinLikeFits addFits like.1 like.2

def joinFactorsFit (head others : List Expr) : Bool :=
  let factors := head ++ others
  match scalable? factors with
  | some (start, step, _) =>
    let scale := factors.filter fun f => !f.isRecurrence
    mulFits (scale ++ [start]) && mulFits (scale ++ [step])
  | none =>
    match head, others with
    | [k], [nary .sum es] =>
      (es.all fun e => mulFits [k, e]) && checkAfter (distribute mul k es) addFits
    | _, _ => true

/-- The check of one step of a product, given those of what the step leaves to do. -/
def productStepFits (iw : Int) : Check := fun ops =>
  let flat := flatten .product ops
  let others := flat.filter fun o => !o.isConst
  checkAfter (commonWidth iw flat) fun w =>
  checkAfter (constantFactor w 1 flat) fun c =>
  checkAfter (constantHead w c) fun head =>
    (c = 0 || others.isEmpty) || joinFactorsFit mul addFits mulFits head others

end step

mutual

def sumFitsWithin (iw : Int) : Nat → Check
  | 0, _ => true
  | fuel + 1, ops => sumStepFits (sumWithin iw fuel) (productWithin iw fuel) (sumFitsWithin iw fuel) iw ops

def productFitsWithin (iw : Int) : Nat → Check
  | 0, _ => true
  | fuel + 1, ops =>
    productStepFits (productWithin iw fuel) (sumFitsWithin iw fuel) (productFitsWithin iw fuel) iw ops

end

/-- While the sum of `ops` is made, steps of recurrences only cancel where no terms are left beside. -/
def sumFits (iw : Int) (ops : List Expr) : Bool :=
  sumFitsWithin iw (fuelFor .sum ops) ops

/-- As `sumFits`, for the product of `ops`. -/
def productFits (iw : Int) (ops : List Expr) : Bool :=
  productFitsWithin iw (fuelFor .product ops) ops

end ShapeRecovery.Expr
