import ShapeRecovery.Expr.Constant

namespace ShapeRecovery.Expr

/-- An operator as it is available inside a step. -/
abbrev Build := List Expr → Except Fault Expr

/-- An expression as an integer multiple of another one. -/
def asMultiple : Expr → Except Fault (Int × Expr)
  | nary .product [] => .error .noSuchItem
  | nary .product [const v _, e] => .ok (v, e)
  | nary .product (const v _ :: rest) => .ok (v, product rest)
  | e => .ok (1, e)

/-- The operands of a sum, sorted into kinds; terms and loops stand in the order of their first
occurrence. -/
structure Terms where
  constant : Int
  multiples : List (Expr × Int)
  recurrences : List (Loop × List (Expr × Expr))

namespace Terms

def empty : Terms := ⟨0, [], []⟩

/-- Add `c` to the coefficient of `e`. -/
def addMultiple (e : Expr) (c : Int) : List (Expr × Int) → List (Expr × Int)
  | [] => [(e, c)]
  | (e', c') :: rest =>
    if e' = e then (e', c' + c) :: rest else (e', c') :: addMultiple e c rest

/-- File a recurrence, given by its start and step, under its loop. -/
def addRecurrence (l : Loop) (parts : Expr × Expr) :
    List (Loop × List (Expr × Expr)) → List (Loop × List (Expr × Expr))
  | [] => [(l, [parts])]
  | (l', ps) :: rest =>
    if l' = l then (l', ps ++ [parts]) :: rest else (l', ps) :: addRecurrence l parts rest

def insert (t : Terms) : Expr → Except Fault Terms
  | const v _ => .ok { t with constant := t.constant + v }
  | recurrence start step l =>
    .ok { t with recurrences := addRecurrence l (start, step) t.recurrences }
  | e => do
    let (c, base) ← asMultiple e
    return { t with multiples := addMultiple base c t.multiples }

def ofList (ops : List Expr) : Except Fault Terms :=
  ops.foldlM insert empty

end Terms

/-- The constant term of a sum, left out if it is zero. -/
def constantTerm (w c : Int) : Except Fault (List Expr) := do
  if c = 0 then return []
  let e ← ofInt c w
  return [e]

/-- A term with its coefficient put back; a coefficient that wraps to zero drops the term. -/
def scaleTerm (mul : Build) (w : Int) (base : Expr) (c : Int) : Except Fault (List Expr) := do
  let c ← Word.signed c w
  if c = 1 then return [base]
  if c = 0 then return []
  let k ← ofInt c w
  let e ← mul [k, base]
  return [e]

def scaleTerms (mul : Build) (w : Int) : List (Expr × Int) → Except Fault (List Expr)
  | [] => .ok []
  | (base, c) :: rest => do
    let here ← scaleTerm mul w base c
    let others ← scaleTerms mul w rest
    return here ++ others

/-- The sum of recurrences of one loop, start by start and step by step. -/
def mergeParts (add : Build) (l : Loop) : List (Expr × Expr) → Except Fault Expr
  | [(start, step)] => .ok (recurrence start step l)
  | parts => do
    let start ← add (parts.map Prod.fst)
    let step ← add (parts.map Prod.snd)
    return recur start step l

def mergeAll (add : Build) : List (Loop × List (Expr × Expr)) → Except Fault (List (Loop × Expr))
  | [] => .ok []
  | (l, parts) :: rest => do
    let e ← mergeParts add l parts
    let others ← mergeAll add rest
    return (l, e) :: others

/-- The last of the loops in their order, `l` if it is not exceeded. -/
def innermost (l : Loop) : List Loop → Loop
  | [] => l
  | m :: ms => innermost (if l.lt m then m else l) ms

/-- Add terms that do not change with the loop `l` to a term of `l`: a recurrence takes them into its
start. -/
def addInvariant (add : Build) (l : Loop) (moved : List Expr) : Expr → Except Fault Expr
  | recurrence start step _ => do
    let start ← add (start :: moved)
    return recur start step l
  | e => if moved.isEmpty then .ok e else add (e :: moved)

/-- Add the terms `rest` to `e`, the merged recurrence of the loop `l`: those that do not change
with `l` go into its start. -/
def foldInto (add : Build) (l : Loop) (e : Expr) (rest : List Expr) : Except Fault Expr := do
  let moved := rest.filter fun o => !o.dependsOn l
  let kept := rest.filter fun o => o.dependsOn l
  let e ← addInvariant add l moved e
  if kept.isEmpty then return e
  ordered .sum (e :: kept)

/-- The terms of a sum once like terms are collected: those of no loop of their own, and one for each
loop that recurrences ran over. -/
def collectLike (add mul : Build) (w : Int) (t : Terms) :
    Except Fault (List Expr × List (Loop × Expr)) := do
  let c ← Word.signed t.constant w
  let head ← constantTerm w c
  let scaled ← scaleTerms mul w t.multiples
  let merged ← mergeAll add t.recurrences
  return (head ++ scaled, merged)

/-- The term of the innermost loop with that loop, and the other terms. -/
def takeInnermost (first : Loop × Expr) (more : List (Loop × Expr)) : (Loop × Expr) × List Expr :=
  let inner := innermost first.1 (more.map Prod.fst)
  let chosen := ((first :: more).find? fun p => p.1 = inner).getD first
  let others := ((first :: more).filter fun p => p.1 ≠ inner).map Prod.snd
  ((inner, chosen.2), others)

/-- The sum of collected terms. -/
def joinLike (add : Build) (w : Int) (rest : List Expr) : List (Loop × Expr) → Except Fault Expr
  | [] => if rest.isEmpty then zero w else ordered .sum rest
  | first :: more =>
    let ((inner, e), others) := takeInnermost first more
    foldInto add inner e (rest ++ others)

/-- One step of a sum, given sums and products for what the step leaves to do. -/
def sumStep (add mul : Build) (iw : Int) (ops : List Expr) : Except Fault Expr := do
  if ops.isEmpty then throw .emptySum
  if ops.contains uncomputable then return uncomputable
  let flat := flatten .sum ops
  let w ← commonWidth iw flat
  let terms ← Terms.ofList flat
  let (rest, merged) ← collectLike add mul w terms
  joinLike add w rest merged

/-- The product of the constants among the factors, wrapped at every step. -/
def constantFactor (w : Int) : Int → List Expr → Except Fault Int
  | c, [] => .ok c
  | c, const v _ :: rest => do
    let c ← Word.signed (c * v) w
    constantFactor w c rest
  | c, _ :: rest => constantFactor w c rest

/-- The constant factor of a product, left out if it is one. -/
def constantHead (w c : Int) : Except Fault (List Expr) := do
  if c = 1 then return []
  let k ← ofInt c w
  return [k]

/-- The only recurrence among the factors, if the other factors do not change with its loop. -/
def scalable? (factors : List Expr) : Option (Expr × Expr × Loop) :=
  match factors.filter fun f => f.isRecurrence with
  | [recurrence start step l] =>
    let scale := factors.filter fun f => !f.isRecurrence
    if scale.isEmpty || scale.any fun f => f.dependsOn l then none else some (start, step, l)
  | _ => none

/-- The products of a constant with every term of a sum. -/
def distribute (mul : Build) (c : Expr) : List Expr → Except Fault (List Expr)
  | [] => .ok []
  | e :: es => do
    let p ← mul [c, e]
    let rest ← distribute mul c es
    return p :: rest

/-- The product of the constants `head` and of other factors: a single recurrence is scaled, a single
sum is multiplied out, and anything else is sorted. -/
def joinFactors (add mul : Build) (head others : List Expr) : Except Fault Expr :=
  let factors := head ++ others
  match scalable? factors with
  | some (start, step, l) => do
    let scale := factors.filter fun f => !f.isRecurrence
    let start ← mul (scale ++ [start])
    let step ← mul (scale ++ [step])
    return recur start step l
  | none =>
    match head, others with
    | [k], [nary .sum es] => do
      let terms ← distribute mul k es
      add terms
    | _, _ => ordered .product factors

/-- One step of a product, given sums and products for what the step leaves to do. -/
def productStep (add mul : Build) (iw : Int) (ops : List Expr) : Except Fault Expr := do
  if ops.isEmpty then return ← one iw
  if ops.contains uncomputable then return uncomputable
  let flat := flatten .product ops
  let w ← commonWidth iw flat
  let c ← constantFactor w 1 flat
  let others := flat.filter fun o => !o.isConst
  if c = 0 then return ← zero w
  if others.isEmpty then return ← ofInt c w
  let head ← constantHead w c
  joinFactors add mul head others

mutual

/-- The sum of `ops`, with at most `fuel` nested steps. -/
def sumWithin (iw : Int) : Nat → Build
  | 0, _ => .error .outOfFuel
  | fuel + 1, ops => sumStep (sumWithin iw fuel) (productWithin iw fuel) iw ops

/-- The product of `ops`, with at most `fuel` nested steps. -/
def productWithin (iw : Int) : Nat → Build
  | 0, _ => .error .outOfFuel
  | fuel + 1, ops => productStep (sumWithin iw fuel) (productWithin iw fuel) iw ops

end

/-- Nested steps that are enough for an operator over `ops`. -/
def fuelFor (op : Nary) (ops : List Expr) : Nat :=
  4 * weight (nary op ops) + 4

/-- The canonical sum; `iw` is the width where the operands give none. -/
def sumOf (iw : Int) (ops : List Expr) : Except Fault Expr :=
  sumWithin iw (fuelFor .sum ops) ops

/-- The canonical product; the product of nothing is one. -/
def productOf (iw : Int) (ops : List Expr) : Except Fault Expr :=
  productWithin iw (fuelFor .product ops) ops

def negation (iw : Int) (e : Expr) : Except Fault Expr := do
  let w ← e.width
  let minusOne ← ofInt (-1) (w.getD iw)
  productOf iw [minusOne, e]

def difference (iw : Int) (lhs rhs : Expr) : Except Fault Expr := do
  let r ← negation iw rhs
  sumOf iw [lhs, r]

end ShapeRecovery.Expr
