import ShapeRecovery.Proofs.Expr.Value
import ShapeRecovery.Expr.Algebra

namespace ShapeRecovery.Expr

/-- The gap of an operator over a list of operands. -/
abbrev Account := List Expr → Gap

/-- The gap that depends on a result; where there is no result there is none. -/
def gapAfter {α : Type} (x : Except Fault α) (f : α → Gap) : Gap :=
  match x with
  | .ok a => f a
  | .error _ => 0

@[simp] theorem gapAfter_ok {α : Type} (a : α) (f : α → Gap) : gapAfter (.ok a) f = f a := rfl

/-- The iterations of a loop. -/
def iterations (l : Loop) : Gap := fun ρ => ρ.count l

@[simp] theorem iterations_apply (l : Loop) (ρ : Valuation) : iterations l ρ = ρ.count l := rfl

/-- The step of a recurrence of `own`, counted with `l` instead. -/
def confusion (step : Expr) (own l : Loop) : Gap :=
  fun ρ => step.meaning ρ * (ρ.count l - ρ.count own)

@[simp] theorem confusion_apply (step : Expr) (own l : Loop) (ρ : Valuation) :
    confusion step own l ρ = step.meaning ρ * (ρ.count l - ρ.count own) := rfl

section step

variable (add mul : Build) (addGap mulGap : Account)

def scaleTermGap (w : Int) (base : Expr) (c : Int) : Gap :=
  let k := c.bmod (Word.modulus w)
  if k = 1 ∨ k = 0 then 0 else mulGap [const k w, base]

def scaleTermsGap (w : Int) : List (Expr × Int) → Gap
  | [] => 0
  | (base, c) :: rest => scaleTermGap mulGap w base c + scaleTermsGap w rest

def mergePartsGap (l : Loop) : List (Expr × Expr) → Gap
  | [_] => 0
  | parts => addGap (parts.map Prod.fst) + addGap (parts.map Prod.snd) * iterations l

def mergeAllGap : List (Loop × List (Expr × Expr)) → Gap
  | [] => 0
  | (l, parts) :: rest => mergePartsGap addGap l parts + mergeAllGap rest

/-- The one place where a value is lost: `e` may be a recurrence of a loop other than `l`. -/
def addInvariantGap (l : Loop) (moved : List Expr) : Expr → Gap
  | recurrence start step own => addGap (start :: moved) + confusion step own l
  | e => if moved.isEmpty then 0 else addGap (e :: moved)

def joinLikeGap (rest : List Expr) : List (Loop × Expr) → Gap
  | [] => 0
  | first :: more =>
    let ((inner, e), others) := takeInnermost first more
    addInvariantGap addGap inner ((rest ++ others).filter fun o => !o.dependsOn inner) e

/-- The gap of one step of a sum, given those of what the step leaves to do. -/
def sumStepGap (iw : Int) (ops : List Expr) : Gap :=
  let flat := flatten .sum ops
  gapAfter (commonWidth iw flat) fun w =>
  gapAfter (Terms.ofList flat) fun terms =>
  gapAfter (collectLike add mul w terms) fun like =>
    scaleTermsGap mulGap w terms.multiples + mergeAllGap addGap terms.recurrences +
      joinLikeGap addGap like.1 like.2

def distributeGap (c : Expr) : List Expr → Gap
  | [] => 0
  | e :: es => mulGap [c, e] + distributeGap c es

def joinFactorsGap (head others : List Expr) : Gap :=
  let factors := head ++ others
  match scalable? factors with
  | some (start, step, l) =>
    let scale := factors.filter fun f => !f.isRecurrence
    mulGap (scale ++ [start]) + mulGap (scale ++ [step]) * iterations l
  | none =>
    match head, others with
    | [k], [nary .sum es] => distributeGap mulGap k es + gapAfter (distribute mul k es) addGap
    | _, _ => 0

/-- The gap of one step of a product, given those of what the step leaves to do. -/
def productStepGap (iw : Int) (ops : List Expr) : Gap :=
  let flat := flatten .product ops
  let others := flat.filter fun o => !o.isConst
  gapAfter (commonWidth iw flat) fun w =>
  gapAfter (constantFactor w 1 flat) fun c =>
  gapAfter (constantHead w c) fun head =>
    if c = 0 ∨ others.isEmpty then 0 else joinFactorsGap mul addGap mulGap head others

end step

mutual

def sumGapWithin (iw : Int) : Nat → Account
  | 0, _ => 0
  | fuel + 1, ops =>
    sumStepGap (sumWithin iw fuel) (productWithin iw fuel) (sumGapWithin iw fuel)
      (productGapWithin iw fuel) iw ops

def productGapWithin (iw : Int) : Nat → Account
  | 0, _ => 0
  | fuel + 1, ops =>
    productStepGap (productWithin iw fuel) (sumGapWithin iw fuel) (productGapWithin iw fuel) iw ops

end

/-- By how much the canonical sum of `ops` exceeds the sum of their values. -/
def sumGap (iw : Int) (ops : List Expr) : Gap :=
  sumGapWithin iw (fuelFor .sum ops) ops

/-- By how much the canonical product of `ops` exceeds the product of their values. -/
def productGap (iw : Int) (ops : List Expr) : Gap :=
  productGapWithin iw (fuelFor .product ops) ops

end ShapeRecovery.Expr
