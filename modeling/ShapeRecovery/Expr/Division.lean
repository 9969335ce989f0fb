import ShapeRecovery.Expr.Substitution

namespace ShapeRecovery.Expr

/-- The quotient and the remainder where no look into the parts is needed. -/
def immediateDivision? (w : Int) (num den : Expr) : Except Fault (Option (Expr × Expr)) := do
  if num = den then
    let q ← one w
    let r ← zero w
    return some (q, r)
  if num.isZero then
    let q ← zero w
    let r ← zero w
    return some (q, r)
  if den.isOne then
    let r ← zero w
    return some (num, r)
  return none

/-- Nothing divides: all of `num` remains. -/
def indivisible (w : Int) (num : Expr) : Except Fault (Expr × Expr) := do
  let q ← zero w
  return (q, num)

/-- Divide a product by an unknown value that is none of its factors. The remainder is what is
left of the product when the unknown value is zero. -/
def divideByUnknown (iw w : Int) (num den : Expr) (bits : Int) : Except Fault (Expr × Expr) := do
  let nought ← zero bits
  let r ← substitute iw (lookup [(den, nought)]) num
  if r.isZero then
    let unit ← one bits
    let q ← substitute iw (lookup [(den, unit)]) num
    let z ← zero w
    return (q, z)
  indivisible w num

mutual

/-- Divide by a denominator that is not taken apart. -/
def divideByAtom (iw : Int) (den num : Expr) : Except Fault (Expr × Expr) := do
  let w ← commonWidth iw [num, den]
  match ← immediateDivision? w num den with
  | some qr => return qr
  | none =>
    match num with
    | const n _ =>
      match den with
      | const d _ =>
        if d = 0 then indivisible w num
        else do
          let (q, r) ← Word.quotRem n d
          let q ← ofInt q w
          let r ← ofInt r w
          return (q, r)
      | _ => indivisible w num
    | recurrence start step l => do
      let (qs, rs) ← divideByAtom iw den start
      let (qt, rt) ← divideByAtom iw den step
      return (recur qs qt l, recur rs rt l)
    | nary .sum terms => do
      let parts ← divideTerms iw den terms
      let q ← sumOf iw (parts.map Prod.fst)
      let r ← sumOf iw (parts.map Prod.snd)
      return (q, r)
    | nary .product factors => do
      match ← divideFactor? iw den factors with
      | some quotients => do
        let q ← productOf iw quotients
        let r ← zero w
        return (q, r)
      | none =>
        match den with
        | unknown _ bits => divideByUnknown iw w num den bits
        | _ => indivisible w num
    | _ => indivisible w num

def divideTerms (iw : Int) (den : Expr) : List Expr → Except Fault (List (Expr × Expr))
  | [] => .ok []
  | e :: es => do
    let qr ← divideByAtom iw den e
    let rest ← divideTerms iw den es
    return qr :: rest

/-- The factors with the first divisible one replaced by its quotient. -/
def divideFactor? (iw : Int) (den : Expr) : List Expr → Except Fault (Option (List Expr))
  | [] => .ok none
  | e :: es => do
    let (q, r) ← divideByAtom iw den e
    if r.isZero then return some (q :: es)
    let rest ← divideFactor? iw den es
    return rest.map (e :: ·)

end

mutual

/-- Divide `num` by `den`; a product divides if its factors do, one after the other. -/
def divideBy (iw : Int) (den num : Expr) : Except Fault (Expr × Expr) :=
  match den with
  | nary .product factors => do
    let w ← commonWidth iw [num, den]
    match ← immediateDivision? w num den with
    | some qr => return qr
    | none =>
      match ← divideByAll? iw factors num with
      | some q => do
        let r ← zero w
        return (q, r)
      | none => indivisible w num
  | _ => divideByAtom iw den num

/-- The quotient by all the factors in turn, if none leaves a remainder. -/
def divideByAll? (iw : Int) : List Expr → Expr → Except Fault (Option Expr)
  | [], num => .ok (some num)
  | factor :: factors, num => do
    let (q, r) ← divideBy iw factor num
    if r.isZero then divideByAll? iw factors q else return none

end

/-- The quotient and the remainder of `num` by `den`. -/
def quotRem (iw : Int) (num den : Expr) : Except Fault (Expr × Expr) :=
  divideBy iw den num

end ShapeRecovery.Expr
