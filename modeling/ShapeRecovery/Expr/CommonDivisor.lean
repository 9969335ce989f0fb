import ShapeRecovery.Expr.Division
import ShapeRecovery.Number.Factorization
import ShapeRecovery.Settings
import ShapeRecovery.Trace

namespace ShapeRecovery.Expr

/-- Texts in a row, as messages list them. -/
def textRow (es : List Expr) : Except Fault String := do
  let parts ← textList es
  return ", ".intercalate parts

/-- Say which expressions were found, where messages are wanted. -/
def sayRow (settings : Settings) (label : String) (es : List Expr) : Traced Unit := do
  if settings.trace then
    let row ← textRow es
    Traced.say .divisor s!"{label}: {row}"

/-- The sign of a constant as a factor, left out if it is positive. -/
def signFactor (v w : Int) : Except Fault (List Expr) := do
  if v < 0 then
    let e ← ofInt (-1) w
    return [e]
  return []

/-- The factors of the absolute value of a constant; those of one are one. -/
def sizeFactors (settings : Settings) (v w : Int) (sign : List Expr) : Traced (List Expr) := do
  if v.natAbs = 1 then
    let e ← one w
    return sign ++ [e]
  let found ← Number.factors v
  let parts ← (found.mapM fun p : Nat => ofInt p w : Except Fault (List Expr))
  sayRow settings s!"constant multipliers of {v}" (sign ++ parts)
  return sign ++ parts

/-- The constant factors that a constant other than zero is searched for, the sign first. -/
def constantDivisors (settings : Settings) : Expr → Traced (List Expr)
  | const v w => do
    if v = 0 then throw .notNonzeroConstant
    let sign ← signFactor v w
    sizeFactors settings v w sign
  | _ => throw .notNonzeroConstant

/-- The factors of a product that are searched for divisors. -/
def isSearchedFactor : Expr → Bool
  | const .. | unknown .. | cast .. | nary .sum _ => true
  | _ => false

/-- A product without the factors that are not searched: what divides the rest divides the
product. -/
def searchableProduct (iw : Int) (e : Expr) : Except Fault Expr :=
  match e with
  | nary .product factors => do
    match factors.filter isSearchedFactor with
    | [] => do
      let w ← e.width
      one (w.getD iw)
    | kept => productOf iw kept
  | _ => .ok e

/-- The factors of a product as its recurrences start, and as they step. -/
structure ProductParts where
  starts : List Expr
  steps : List Expr
  hasRecurrence : Bool

namespace ProductParts

def append (p q : ProductParts) : ProductParts :=
  ⟨p.starts ++ q.starts, p.steps ++ q.steps, p.hasRecurrence || q.hasRecurrence⟩

/-- A factor that does not change with a loop counts on both sides. -/
def still (e : Expr) : ProductParts := ⟨[e], [e], false⟩

def nothing : ProductParts := ⟨[], [], false⟩

/-- What a factor contributes; a recurrence that starts at zero leaves only its step, and a cast
around a recurrence is put around its parts. -/
def ofFactor (iw : Int) (e : Expr) : Except Fault ProductParts :=
  match e with
  | cast _ (recurrence start step _) _ => do
    let step ← withOperands iw e [step]
    if start.isZero then return ⟨[], [step], true⟩
    let start ← withOperands iw e [start]
    return ⟨[start], [step], true⟩
  | cast _ (nary .product _) _ | cast _ (nary .sum _) _ | cast _ (unknown ..) _ => return still e
  | recurrence start step _ => return ⟨if start.isZero then [] else [start], [step], true⟩
  | const .. | unknown .. | nary .sum _ => return still e
  | _ => return nothing

def ofFactors (iw : Int) : List Expr → Except Fault ProductParts
  | [] => .ok nothing
  | e :: es => do
    let p ← ofFactor iw e
    let q ← ofFactors iw es
    return p.append q

end ProductParts

/-- The terms that stand for `e` in the search; `divisor` finds a divisor of smaller expressions. -/
def searchTerms (divisor : List Expr → Traced Expr) (iw : Int) (e : Expr) : Traced (List Expr) :=
  match e with
  | cast _ (recurrence start step _) _ => do
    let a ← withOperands iw e [step]
    let b ← withOperands iw e [start]
    return [a, b]
  | cast _ (nary .product _) _ | cast _ (nary .sum _) _ | cast _ (unknown ..) _ => return [e]
  | const .. | unknown .. | nary .sum _ => return [e]
  | nary .product factors => do
    let parts ← ProductParts.ofFactors iw factors
    if parts.hasRecurrence && !parts.starts.isEmpty then
      let a ← productOf iw parts.starts
      let b ← productOf iw parts.steps
      let d ← divisor [a, b]
      return [d]
    if parts.steps.isEmpty then return []
    let t ← productOf iw parts.steps
    return [t]
  | recurrence start step _ => do
    let a ← searchableProduct iw start
    let b ← searchableProduct iw step
    let d ← divisor [a, b]
    return [d]
  | _ => return []

def searchTermsOfList (divisor : List Expr → Traced Expr) (iw : Int) :
    List Expr → Traced (List Expr)
  | [] => return []
  | e :: es => do
    let here ← searchTerms divisor iw e
    let rest ← searchTermsOfList divisor iw es
    return here ++ rest

/-- The candidates that a factor of a term offers: constants are broken up. -/
def factorCandidates (settings : Settings) (e : Expr) : Traced (List Expr) :=
  if e.isConst then constantDivisors settings e else return [e]

/-- The candidates that the factors of a term offer. -/
def candidates (settings : Settings) : List Expr → Traced (List Expr)
  | [] => return []
  | e :: es => do
    let here ← factorCandidates settings e
    let rest ← candidates settings es
    return here ++ rest

def factorsOf : Expr → List Expr
  | nary .product factors => factors
  | e => [e]

/-- The candidates that divide `term` one after the other, each consuming its factor. -/
def matching (iw : Int) : List Expr → Expr → Except Fault (List Expr)
  | [], _ => .ok []
  | d :: ds, term => do
    let (q, r) ← quotRem iw term d
    if r.isZero then
      let rest ← matching iw ds q
      return d :: rest
    matching iw ds term

/-- Keep the candidates that match every term; zero is divided by anything. -/
def matchingAll (iw : Int) : List Expr → List Expr → Except Fault (List Expr)
  | [], ds => .ok ds
  | term :: terms, ds => do
    if term.isZero then return ← matchingAll iw terms ds
    match ← matching iw ds term with
    | [] => return []
    | kept => matchingAll iw terms kept

def isMinusOne : Expr → Bool
  | const v _ => v == -1
  | _ => false

/-- The divisor made of candidates. -/
def joinCandidates (iw w : Int) : List Expr → Except Fault Expr
  | [] => one w
  | [d] => .ok d
  | ds => productOf iw ds

/-- A divisor of terms of `w` bits: the candidates of the first one that is not zero, as far as they
match the others. -/
def divisorOfTerms (settings : Settings) (w : Int) (terms : List Expr) : Traced Expr := do
  match terms with
  | [] => one w
  | _ :: _ =>
    match terms.dropWhile isZero with
    | [] => zero w
    | first :: rest =>
      let seeds ← candidates settings (factorsOf first)
      let kept ← matchingAll settings.indexWidth rest seeds
      joinCandidates settings.indexWidth w (kept.filter fun d => !isMinusOne d)

/-- One step of the search, given a divisor for the parts of recurrences. -/
def divisorStep (divisor : List Expr → Traced Expr) (settings : Settings) (es : List Expr) :
    Traced Expr := do
  let iw := settings.indexWidth
  match es with
  | [] => throw .noExpressions
  | e :: _ =>
    let w ← e.width
    let w := if w.getD 0 = 0 then iw else w.getD iw
    let terms ← searchTermsOfList divisor iw es
    sayRow settings "GCD terms" terms
    divisorOfTerms settings w terms

/-- A divisor of `es`, with recurrences opened at most `fuel` levels deep. -/
def divisorWithin (settings : Settings) : Nat → List Expr → Traced Expr
  | 0, _ => throw .outOfFuel
  | fuel + 1, es => divisorStep (divisorWithin settings fuel) settings es

/-- Levels of recurrences that are enough for `es`. -/
def divisorFuel (es : List Expr) : Nat :=
  4 * weightSum es + 4

/-- A common divisor of `es`: zero if all terms are zero, one if nothing common is found. -/
def commonDivisor (settings : Settings) (es : List Expr) : Traced Expr :=
  divisorWithin settings (divisorFuel es) es

/-- The terms that are searched for common factors in place of `es`. -/
def divisorTerms (settings : Settings) (es : List Expr) : Traced (List Expr) :=
  searchTermsOfList (divisorWithin settings (divisorFuel es)) settings.indexWidth es

end ShapeRecovery.Expr
