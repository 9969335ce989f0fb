import ShapeRecovery.Expr.Substitution

namespace ShapeRecovery.Expr

/-- `coefficient * n + free` for the loop of `linear`, or just `free` where no loop was found. -/
structure LinearForm where
  linear : Option (Expr × Loop)
  free : Expr
  /-- No cast was met on the way to the loop. -/
  safe : Bool

/-- A recurrence found among operands: its linear form, and all the operands beside it. -/
structure Occurrence where
  coefficient : Expr
  loop : Loop
  free : Expr
  others : List Expr

mutual

/-- Search for a recurrence and carry its two parts outward. -/
def findLinear (iw : Int) (e : Expr) : Except Fault LinearForm :=
  match e with
  | cast _ arg _ => do
    let inner ← findLinear iw arg
    let linear ← match inner.linear with
      | none => pure none
      | some (a, l) => do
        let a ← withOperands iw e [a]
        pure (some (a, l))
    let free ← withOperands iw e [inner.free]
    return ⟨linear, free, false⟩
  | recurrence start step l => return ⟨some (step, l), start, true⟩
  | nary .product factors => do
    match ← findAmong iw factors with
    | (some found, safe) =>
      let b ← productOf iw (found.others ++ [found.free])
      let a ← productOf iw (found.others ++ [found.coefficient])
      return ⟨some (a, found.loop), b, safe⟩
    | (none, safe) => return ⟨none, e, safe⟩
  | nary .sum terms => do
    match ← findAmong iw terms with
    | (some found, safe) =>
      let b ← sumOf iw (found.others ++ [found.free])
      return ⟨some (found.coefficient, found.loop), b, safe⟩
    | (none, safe) => return ⟨none, e, safe⟩
  | _ => return ⟨none, e, true⟩

/-- The first operand with a recurrence, and whether the search met no cast. -/
def findAmong (iw : Int) : List Expr → Except Fault (Option Occurrence × Bool)
  | [] => .ok (none, true)
  | e :: es => do
    let form ← findLinear iw e
    match form.linear with
    | some (a, l) => return (some ⟨a, l, form.free, es⟩, form.safe)
    | none =>
      let (found, safe) ← findAmong iw es
      return (found.map fun o => { o with others := e :: o.others }, form.safe && safe)

end

/-- The linear form of `e`; without a loop there is nothing that a cast could spoil. -/
def linearForm (iw : Int) (e : Expr) : Except Fault LinearForm := do
  let form ← findLinear iw e
  return { form with safe := form.safe || form.linear.isNone }

/-- `e` as a recurrence over the loop of its linear form, and whether that is safe. -/
def asRecurrence (iw : Int) (e : Expr) : Except Fault (Expr × Bool) := do
  let form ← linearForm iw e
  match form.linear with
  | none => return (e, true)
  | some (a, l) => return (recur form.free a l, form.safe)

/-- The two parts of `e = a * n + b`. -/
structure LinearParts where
  a : Expr
  b : Expr
  safe : Bool

def linearParts (iw : Int) (e : Expr) : Except Fault LinearParts := do
  let (r, safe) ← asRecurrence iw e
  match r with
  | recurrence start step _ => return ⟨step, start, safe⟩
  | _ =>
    let w ← r.width
    let a ← zero (w.getD iw)
    return ⟨a, r, safe⟩

end ShapeRecovery.Expr
