namespace ShapeRecovery.Number

/-- The greatest number whose square is at most `n`, found from that of `n / 4`. -/
def floorSqrt (n : Nat) : Nat :=
  if n = 0 then 0
  else
    let r := 2 * floorSqrt (n / 4)
    if (r + 1) * (r + 1) ≤ n then r + 1 else r
termination_by n

/-- Mark `count` multiples of `p`, from `start` on, as not prime. -/
def crossOut (p : Nat) : Nat → Nat → Array Bool → Array Bool
  | 0, _, marks => marks
  | count + 1, start, marks => crossOut p count (start + p) (marks.setIfInBounds start false)

/-- Run over the next `steps` candidates from `p` on; the multiples of a prime are crossed out
from its square on, since smaller ones have a smaller factor. -/
def sieveFrom (bound : Nat) : Nat → Nat → Array Bool → Array Bool
  | 0, _, marks => marks
  | steps + 1, p, marks =>
    let marks := if marks.getD p false then crossOut p ((bound - p * p) / p + 1) (p * p) marks
      else marks
    sieveFrom bound steps (p + 1) marks

/-- The primes up to `bound`, by crossing out multiples. -/
def sieve (bound : Nat) : List Nat :=
  let marks := sieveFrom bound (floorSqrt bound - 1) 2 (Array.replicate (bound + 1) true)
  (List.range (bound + 1)).filter fun n => 2 ≤ n && marks.getD n false

/-- The first sixty primes. -/
def smallPrimes : List Nat :=
  [2, 3, 5, 7, 11, 13, 17, 19, 23, 29, 31, 37, 41, 43, 47,
    53, 59, 61, 67, 71, 73, 79, 83, 89, 97, 101, 103, 107, 109, 113,
    127, 131, 137, 139, 149, 151, 157, 163, 167, 173, 179, 181, 191, 193, 197,
    199, 211, 223, 227, 229, 233, 239, 241, 251, 257, 263, 269, 271, 277, 281]

/-- The greatest of the small primes. -/
def smallBound : Nat := 281

/-- The primes up to `bound` in increasing order. -/
def primesTo (bound : Int) : List Nat :=
  if bound ≤ smallBound then smallPrimes.filter fun p => (p : Int) ≤ bound
  else sieve bound.toNat

end ShapeRecovery.Number
