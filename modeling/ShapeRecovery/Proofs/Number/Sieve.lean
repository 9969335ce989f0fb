import Mathlib.Data.Nat.Prime.Basic
import Mathlib.Tactic.Ring
import ShapeRecovery.Number.Sieve

namespace ShapeRecovery.Number

private theorem floorSqrt_bounds (n : Nat) :
    floorSqrt n * floorSqrt n ≤ n ∧ n < (floorSqrt n + 1) * (floorSqrt n + 1) := by
  fun_induction floorSqrt n with
  | case1 => simp
  | case2 n _ r next ih =>
    obtain ⟨low, high⟩ := ih
    refine ⟨next, ?_⟩
    have quarter : n < 4 * (n / 4 + 1) := by omega
    have square : (r + 1 + 1) * (r + 1 + 1) =
        4 * ((floorSqrt (n / 4) + 1) * (floorSqrt (n / 4) + 1)) := by
      simp only [r]
      ring
    omega
  | case3 n _ r next ih =>
    obtain ⟨low, high⟩ := ih
    refine ⟨?_, by omega⟩
    have quarter : 4 * (n / 4) ≤ n := Nat.mul_div_le n 4
    have square : r * r = 4 * (floorSqrt (n / 4) * floorSqrt (n / 4)) := by
      simp only [r]
      ring
    omega

theorem le_floorSqrt {q n : Nat} : q ≤ floorSqrt n ↔ q * q ≤ n := by
  obtain ⟨low, high⟩ := floorSqrt_bounds n
  constructor
  · exact fun h => (Nat.mul_self_le_mul_self h).trans low
  · exact fun h => Nat.lt_succ_iff.mp (Nat.mul_self_lt_mul_self_iff.mp (h.trans_lt high))

/-- A place is left unless it was crossed out before or is one of those crossed out now. -/
private theorem getD_crossOut (p count start n : Nat) (marks : Array Bool) :
    (crossOut p count start marks).getD n false = true ↔
      marks.getD n false = true ∧ ∀ i < count, n ≠ start + i * p := by
  induction count generalizing start marks with
  | zero => simp [crossOut]
  | succ count ih =>
    have here : (marks.setIfInBounds start false).getD n false = true ↔
        marks.getD n false = true ∧ n ≠ start := by
      by_cases same : start = n
      · subst same
        simp [Array.getD_eq_getD_getElem?, Array.getElem?_setIfInBounds_self]
        split <;> simp
      · simp [Array.getD_eq_getD_getElem?, same, Ne.symm same]
    rw [crossOut, ih, here]
    constructor
    · rintro ⟨⟨left, first⟩, others⟩
      refine ⟨left, fun i hi => ?_⟩
      cases i with
      | zero => simpa using first
      | succ i =>
        have other := others i (by omega)
        rwa [Nat.add_one_mul, Nat.add_comm (i * p), ← Nat.add_assoc]
    · rintro ⟨left, all⟩
      refine ⟨⟨left, by simpa using all 0 (by omega)⟩, fun i hi => ?_⟩
      have other := all (i + 1) (by omega)
      rwa [Nat.add_one_mul, Nat.add_comm (i * p), ← Nat.add_assoc] at other

/-- The numbers left are those without a divisor below `p` whose square they reach. -/
def Sieved (bound p : Nat) (marks : Array Bool) : Prop :=
  ∀ n ≤ bound, marks.getD n false = true ↔ ∀ q, 2 ≤ q → q < p → q ∣ n → n < q * q

/-- The multiples of `p` from its square on are the ones that are crossed out. -/
private theorem multiples_iff {bound p n : Nat} (pos : 0 < p) (small : n ≤ bound) :
    (∀ i < (bound - p * p) / p + 1, n ≠ p * p + i * p) ↔ (p ∣ n → n < p * p) := by
  constructor
  · rintro none ⟨k, rfl⟩
    by_contra large
    have reach : p ≤ k := Nat.le_of_mul_le_mul_left (not_lt.mp large) pos
    refine none (k - p) ?_ ?_
    · rw [Nat.lt_succ_iff, Nat.le_div_iff_mul_le pos, Nat.sub_mul, Nat.mul_comm k]
      omega
    · rw [← Nat.add_mul, Nat.add_sub_cancel' reach, Nat.mul_comm]
  · rintro below i - rfl
    have divides : p ∣ p * p + i * p := ⟨p + i, by ring⟩
    have := below divides
    omega

/-- One candidate: a number still left is prime, and any other has a smaller divisor that crossed
out its multiples. -/
theorem Sieved.next {bound p : Nat} {marks : Array Bool} (sieved : Sieved bound p marks)
    (two : 2 ≤ p) (square : p * p ≤ bound) :
    Sieved bound (p + 1) (if marks.getD p false then
      crossOut p ((bound - p * p) / p + 1) (p * p) marks else marks) := by
  have pos : 0 < p := by omega
  have low : p ≤ bound := (Nat.le_mul_self p).trans square
  have split (n : Nat) : (∀ q, 2 ≤ q → q < p + 1 → q ∣ n → n < q * q) ↔
      (∀ q, 2 ≤ q → q < p → q ∣ n → n < q * q) ∧ (p ∣ n → n < p * p) := by
    constructor
    · exact fun all => ⟨fun q hq less => all q hq (by omega), all p two (by omega)⟩
    · rintro ⟨before, here⟩ q hq less divides
      rcases Nat.lt_succ_iff_lt_or_eq.mp less with less | rfl
      · exact before q hq less divides
      · exact here divides
  intro n small
  rw [split, ← sieved n small]
  split
  · rw [getD_crossOut, multiples_iff pos small]
  · next crossed =>
    have composite := (sieved p low).not.mp crossed
    push Not at composite
    obtain ⟨q, hq, less, divides, reach⟩ := composite
    refine ⟨fun left => ⟨left, fun multiple => ?_⟩, And.left⟩
    have below := (sieved n small).mp left q hq less (divides.trans multiple)
    exact below.trans_le (reach.trans (Nat.le_mul_self p))

theorem Sieved.run {bound p : Nat} {marks : Array Bool} (steps : Nat)
    (sieved : Sieved bound p marks) (two : 2 ≤ p)
    (squares : ∀ q, p ≤ q → q < p + steps → q * q ≤ bound) :
    Sieved bound (p + steps) (sieveFrom bound steps p marks) := by
  induction steps generalizing p marks with
  | zero => exact sieved
  | succ steps ih =>
    have next := sieved.next two (squares p le_rfl (by omega))
    have rest := ih next (by omega) fun q low high => squares q (by omega) (by omega)
    rwa [Nat.add_assoc, Nat.add_comm 1] at rest

/-- The numbers left in the end are the primes. -/
theorem left_iff_prime {bound n : Nat} (two : 2 ≤ n) (small : n ≤ bound) :
    (∀ q, 2 ≤ q → q < 2 + (floorSqrt bound - 1) → q ∣ n → n < q * q) ↔ n.Prime := by
  constructor
  · intro left
    by_contra composite
    have square : n.minFac * n.minFac ≤ n := by
      simpa [sq] using Nat.minFac_sq_le_self (by omega) composite
    have least := (Nat.minFac_prime (by omega : n ≠ 1)).two_le
    have reach := le_floorSqrt.mpr (square.trans small)
    have := left n.minFac least (by omega) n.minFac_dvd
    omega
  · intro prime q hq _ divides
    obtain rfl : q = n := by
      rcases prime.eq_one_or_self_of_dvd q divides with one | same
      · omega
      · exact same
    calc
      q < 2 * q := by omega
      _ ≤ q * q := Nat.mul_le_mul_right q hq

/-- The sieve finds the primes up to the bound. -/
theorem sieve_eq (bound : Nat) : sieve bound = (List.range (bound + 1)).filter Nat.Prime := by
  have start : Sieved bound 2 (Array.replicate (bound + 1) true) := by
    intro n small
    have inside : n < bound + 1 := by omega
    simp only [Array.getD_eq_getD_getElem?, Array.getElem?_replicate, inside, if_true,
      Option.getD_some, true_iff]
    intro q hq less
    omega
  have done := start.run (floorSqrt bound - 1) le_rfl fun q low high =>
    le_floorSqrt.mp (by omega)
  refine List.filter_congr fun n hn => ?_
  have small : n ≤ bound := by simpa [Nat.lt_succ_iff] using hn
  rw [Bool.eq_iff_iff, Bool.and_eq_true, decide_eq_true_iff, decide_eq_true_iff, done n small]
  constructor
  · exact fun ⟨two, left⟩ => (left_iff_prime two small).mp left
  · exact fun prime => ⟨prime.two_le, (left_iff_prime prime.two_le small).mpr prime⟩

theorem smallPrimes_eq : smallPrimes = (List.range (smallBound + 1)).filter Nat.Prime := by
  -- A prime is its own least divisor, which is quick to evaluate.
  have table : smallPrimes =
      (List.range (smallBound + 1)).filter fun n => decide (2 ≤ n) && n.minFac == n := by
    decide +kernel
  rw [table]
  refine List.filter_congr fun n _ => ?_
  rw [Bool.eq_iff_iff, Bool.and_eq_true, decide_eq_true_iff, decide_eq_true_iff, beq_iff_eq,
    Nat.prime_def_minFac]

/-- The primes up to any bound, none below two. -/
theorem primesTo_eq (bound : Int) :
    primesTo bound = (List.range (bound.toNat + 1)).filter Nat.Prime := by
  unfold primesTo
  split
  · next small =>
    have inTable : smallBound + 1 = (bound.toNat + 1) + (smallBound - bound.toNat) := by omega
    rw [smallPrimes_eq, inTable, List.range_add, List.filter_append, List.filter_append,
      List.filter_filter, List.filter_filter]
    have below : ((List.range (bound.toNat + 1)).filter fun p : Nat =>
        decide ((p : Int) ≤ bound) && decide (Nat.Prime p)) =
          (List.range (bound.toNat + 1)).filter Nat.Prime := by
      refine List.filter_congr fun p hp => ?_
      have low : p < bound.toNat + 1 := by simpa using hp
      by_cases prime : p.Prime
      · have pos := prime.pos
        have le : (p : Int) ≤ bound := by omega
        simp [prime, le]
      · simp [prime]
    have above : ((List.map (fun p => bound.toNat + 1 + p)
        (List.range (smallBound - bound.toNat))).filter fun p : Nat =>
          decide ((p : Int) ≤ bound) && decide (Nat.Prime p)) = [] := by
      simp only [List.filter_eq_nil_iff, List.mem_map, List.mem_range, Bool.and_eq_true,
        decide_eq_true_eq, not_and]
      rintro p ⟨i, -, rfl⟩ le
      omega
    rw [below, above, List.append_nil]
  · rw [sieve_eq]

theorem primesTo_rising (bound : Int) : (primesTo bound).Pairwise (· < ·) := by
  rw [primesTo_eq]
  apply List.Pairwise.filter
  exact List.pairwise_lt_range

theorem mem_primesTo {bound : Int} {p : Nat} :
    p ∈ primesTo bound ↔ p.Prime ∧ (p : Int) ≤ bound := by
  rw [primesTo_eq, List.mem_filter, List.mem_range, decide_eq_true_iff]
  constructor
  · intro ⟨low, prime⟩
    have pos := prime.pos
    exact ⟨prime, by omega⟩
  · intro ⟨prime, low⟩
    exact ⟨by omega, prime⟩

theorem primesTo_eq_nil_iff {bound : Int} : primesTo bound = [] ↔ bound < 2 := by
  rw [List.eq_nil_iff_forall_not_mem]
  constructor
  · intro none
    by_contra two
    apply none 2
    exact mem_primesTo.mpr ⟨Nat.prime_two, not_lt.mp two⟩
  · intro low p mem
    obtain ⟨prime, le⟩ := mem_primesTo.mp mem
    have two := prime.two_le
    omega

theorem primesTo_eq_sieve (bound : Int) : primesTo bound = sieve bound.toNat := by
  rw [primesTo_eq, sieve_eq]

/-- Every bound gives the primes up to it in increasing order, and the table gives what the sieve
gives. -/
theorem primesTo_complete (bound : Int) :
    (primesTo bound).Pairwise (· < ·) ∧
      (∀ p : Nat, p ∈ primesTo bound ↔ p.Prime ∧ (p : Int) ≤ bound) ∧
      (primesTo bound = [] ↔ bound < 2) ∧
      (0 ≤ bound → primesTo bound = sieve bound.toNat) := by
  refine ⟨primesTo_rising bound, ?_, primesTo_eq_nil_iff, ?_⟩
  · intro p
    exact mem_primesTo
  · intro _
    exact primesTo_eq_sieve bound

/-- Twenty-five is crossed out, being the square of the last number tried. -/
example : sieve 30 = [2, 3, 5, 7, 11, 13, 17, 19, 23, 29] := by decide +kernel

end ShapeRecovery.Number
