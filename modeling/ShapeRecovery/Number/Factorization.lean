import ShapeRecovery.Fault
import ShapeRecovery.Number.Sieve

namespace ShapeRecovery.Number

/-- Primes past this number are not searched for. -/
def trialLimit : Nat := 65536

/-- Divide `n` by `p` as often as it goes: the number of times, and what is left. -/
def divideOut (p n : Nat) : Nat × Nat :=
  if _h : 2 ≤ p ∧ 0 < n ∧ n % p = 0 then
    let (count, rest) := divideOut p (n / p)
    (count + 1, rest)
  else (0, n)
termination_by n
decreasing_by exact Nat.div_lt_self _h.2.1 _h.1

/-- The factors of `n` found by the primes `ps`, in increasing order, and what is left at the end.
-/
def trialDivide : List Nat → Nat → List Nat
  | [], n => if 1 < n then [n] else []
  | p :: ps, n =>
    if n < p * p then if 1 < n then [n] else []
    else
      let (count, rest) := divideOut p n
      List.replicate count p ++ trialDivide ps rest

/-- The factors of `|v|`, the greatest first. -/
def factors (v : Int) : Except Fault (List Nat) :=
  if v = 0 then .error .factorsOfZero
  else
    let n := v.natAbs
    .ok (trialDivide (primesTo (min (floorSqrt n) trialLimit)) n).reverse

end ShapeRecovery.Number
