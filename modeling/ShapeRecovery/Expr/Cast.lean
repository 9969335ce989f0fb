import ShapeRecovery.Expr.Constant

namespace ShapeRecovery.Expr

/-- The unsigned quotient. -/
def unsignedQuotient (lhs rhs : Expr) : Except Fault Expr := do
  if lhs = uncomputable || rhs = uncomputable then return uncomputable
  if rhs.isOne then return lhs
  match lhs, rhs with
  | const a w, const b w' =>
    if b = 0 then return quotient lhs rhs
    let n ← Word.unsigned a w
    let d ← Word.unsigned b w'
    if d = 0 then throw .divisionByZero
    ofInt (n / d) w
  | _, _ => return quotient lhs rhs

/-- A truncation must narrow its operand and an extension must widen it. -/
def checkDirection (kind : CastKind) (bits : Int) : Option Int → Except Fault Unit
  | none => .error (.widthless (kind == .trunc))
  | some w =>
    if kind = .trunc then
      if bits < w then .ok () else .error .notNarrower
    else
      if bits > w then .ok () else .error .notWider

/-- `e` as a value of `bits` bits. Casts to the width at hand vanish, constants are converted, and
of a chain of casts of one kind only the last is kept. -/
def convert (kind : CastKind) (bits : Int) : Expr → Except Fault Expr
  | uncomputable => .ok uncomputable
  | const v w => do
    if w = bits then return const v w
    checkDirection kind bits (some w)
    if kind = .zeroExtend then
      let u ← Word.unsigned v w
      ofInt u bits
    else ofInt v bits
  | cast kind' arg w => do
    if w = bits then return cast kind' arg w
    checkDirection kind bits (some w)
    if kind' = kind then convert kind bits arg
    else return cast kind (cast kind' arg w) bits
  | e => do
    let w ← e.width
    if w = some bits then return e
    checkDirection kind bits w
    return cast kind e bits

/-- Bring `e` to `bits` bits without regard to its sign. -/
def resize (bits : Int) (e : Expr) : Except Fault Expr := do
  match ← e.width with
  | none => return e
  | some w =>
    if w = bits then return e
    else if w > bits then convert .trunc bits e
    else convert .zeroExtend bits e

end ShapeRecovery.Expr
