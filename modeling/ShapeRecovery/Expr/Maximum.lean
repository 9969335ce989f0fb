import ShapeRecovery.Expr.Constant

namespace ShapeRecovery.Expr

/-- The values of the constants of a list. -/
def constantsOf : List Expr → List Int
  | [] => []
  | const v _ :: rest => v :: constantsOf rest
  | _ :: rest => constantsOf rest

/-- The operands that are no constants, each once. -/
def distinctOthers : List Expr → List Expr → List Expr
  | [], seen => seen
  | e :: rest, seen =>
    if e.isConst || seen.contains e then distinctOthers rest seen
    else distinctOthers rest (seen ++ [e])

/-- The greatest of `v` and `vs`. -/
def greatest (v : Int) (vs : List Int) : Int :=
  vs.foldl max v

/-- How the values of constants of `w` bits compare under a maximum. -/
def readConstant (signed : Bool) (w v : Int) : Except Fault Int :=
  if signed then .ok v else Word.unsigned v w

/-- The maximum of `ops`: nested maxima of the kind are opened, repetitions dropped, and the
constants become one. -/
def maximum (signed : Bool) (iw : Int) (ops : List Expr) : Except Fault Expr := do
  if ops.contains uncomputable then return uncomputable
  let op := if signed then Nary.signedMax else Nary.unsignedMax
  let flat := flatten op ops
  let w ← commonWidth iw flat
  let others := distinctOthers flat []
  match ← (constantsOf flat).mapM (readConstant signed w) with
  | [] => ordered op others
  | v :: vs =>
    let c ← ofInt (greatest v vs) w
    ordered op (others ++ [c])

def signedMaximum (iw : Int) (ops : List Expr) : Except Fault Expr := maximum true iw ops

def unsignedMaximum (iw : Int) (ops : List Expr) : Except Fault Expr := maximum false iw ops

end ShapeRecovery.Expr
