import ShapeRecovery.Fault

namespace ShapeRecovery.Word

/-- The number of words of `bits` bits; a negative number of bits counts as none. -/
def modulus (bits : Int) : Nat :=
  Nat.pow 2 bits.toNat

/-- The representative of `v` modulo `2 ^ bits` that lies in the signed range. -/
def signed (v bits : Int) : Except Fault Int :=
  if bits ≤ 0 then .error .negativeWidth else .ok (v.bmod (modulus bits))

/-- The representative of `v` modulo `2 ^ bits` that is not negative; words of no bits are zero. -/
def unsigned (v bits : Int) : Except Fault Int :=
  if bits < 0 then .error .negativeWidth else .ok (v % modulus bits)

/-- Quotient toward zero and the remainder that goes with it. -/
def quotRem (n d : Int) : Except Fault (Int × Int) :=
  if d = 0 then .error .divisionByZero else .ok (n.tdiv d, n.tmod d)

end ShapeRecovery.Word
