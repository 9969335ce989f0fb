import Mathlib.Algebra.BigOperators.Group.List.Lemmas
import Mathlib.Data.Nat.Factors
import ShapeRecovery.Number.Factorization
import ShapeRecovery.Proofs.Number.Sieve

namespace ShapeRecovery.Number

theorem divideOut_mul (p n : Nat) : p ^ (divideOut p n).1 * (divideOut p n).2 = n := by
  fun_induction divideOut p n with
  | case1 n h count rest eq ih =>
    rw [eq] at ih
    have whole : n = p * (n / p) := (Nat.mul_div_cancel' (Nat.dvd_of_mod_eq_zero h.2.2)).symm
    calc
      p ^ (count + 1) * rest = p * (p ^ count * rest) := by ring
      _ = p * (n / p) := by rw [ih]
      _ = n := whole.symm
  | case2 n h => simp

theorem divideOut_pos (p : Nat) {n : Nat} (pos : 0 < n) : 0 < (divideOut p n).2 := by
  refine Nat.pos_of_ne_zero fun none => ?_
  have whole := divideOut_mul p n
  simp only [none, mul_zero] at whole
  omega

private theorem not_dvd_divideOut {p n : Nat} (two : 2 ≤ p) (pos : 0 < n) : ¬ p ∣ (divideOut p n).2 := by
  fun_induction divideOut p n with
  | case1 n h count rest eq ih =>
    rw [eq] at ih
    exact ih (Nat.div_pos (Nat.le_of_dvd pos (Nat.dvd_of_mod_eq_zero h.2.2)) (by omega))
  | case2 n h =>
    intro divides
    exact h ⟨two, pos, Nat.mod_eq_zero_of_dvd divides⟩

theorem prod_trialDivide (ps : List Nat) {n : Nat} (pos : 0 < n) : (trialDivide ps n).prod = n := by
  have unit {n : Nat} (pos : 0 < n) (less : ¬ 1 < n) : [].prod = n := by
    rw [List.prod_nil]
    omega
  fun_induction trialDivide ps n with
  | case1 n => exact List.prod_singleton
  | case2 n less => exact unit pos less
  | case3 p ps n => exact List.prod_singleton
  | case4 p ps n small less => exact unit pos less
  | case5 p ps n large count rest eq ih =>
    have whole := divideOut_mul p n
    have left := divideOut_pos p pos
    rw [eq] at whole left
    rw [List.prod_append, List.prod_replicate, ih left, whole]

/-- Either prime, or made of primes past `bound` only. -/
def FactorPast (bound f : Nat) : Prop :=
  f.Prime ∨ ∀ q, q.Prime → q ∣ f → bound < q

private theorem dvd_of_mem_trialDivide {ps : List Nat} {n f : Nat} (pos : 0 < n) (mem : f ∈ trialDivide ps n) :
    f ∣ n :=
  prod_trialDivide ps pos ▸ List.dvd_prod mem

/-- Trial division has come to `n` with the primes `ps` ahead of it. Those before were divided out, so
all primes up to `bound` that still divide `n` are ahead. -/
structure Trial (bound : Nat) (ps : List Nat) (n : Nat) : Prop where
  pos : 0 < n
  primes : ∀ p ∈ ps, p.Prime ∧ p ≤ bound
  rising : ps.Pairwise (· < ·)
  ahead : ∀ q, q.Prime → q ≤ bound → q ∣ n → q ∈ ps

private theorem trial_primesTo {n : Nat} (bound : Int) (pos : 0 < n) :
    Trial bound.toNat (primesTo bound) n where
  pos := pos
  primes := by
    intro p mem
    obtain ⟨prime, low⟩ := mem_primesTo.mp mem
    exact ⟨prime, by omega⟩
  rising := primesTo_rising bound
  ahead := by
    intro q prime low _
    have two := prime.two_le
    exact mem_primesTo.mpr ⟨prime, by omega⟩

section trial

variable {bound p n f : Nat} {ps : List Nat}

/-- One prime: it divides what is left no more. -/
theorem Trial.next (trial : Trial bound (p :: ps) n) : Trial bound ps (divideOut p n).2 where
  pos := divideOut_pos p trial.pos
  primes := (List.forall_mem_cons.mp trial.primes).2
  rising := (List.pairwise_cons.mp trial.rising).2
  ahead := by
    intro q prime low divides
    have two := (trial.primes p List.mem_cons_self).1.two_le
    have part : (divideOut p n).2 ∣ n := Dvd.intro_left _ (divideOut_mul p n)
    rcases List.mem_cons.mp (trial.ahead q prime low (divides.trans part)) with rfl | later
    · exact absurd divides (not_dvd_divideOut two trial.pos)
    · exact later

/-- Every divisor is at least the prime that is next, since smaller ones have been divided out. -/
theorem Trial.le_of_dvd (trial : Trial bound (p :: ps) n) (more : 1 < f) (divides : f ∣ n) : p ≤ f := by
  by_contra low
  have prime : f.minFac.Prime := Nat.minFac_prime (by omega)
  have least : f.minFac ≤ f := Nat.minFac_le (by omega)
  have within : p ≤ bound := (trial.primes p List.mem_cons_self).2
  have mem := trial.ahead f.minFac prime (by omega) (f.minFac_dvd.trans divides)
  rcases List.mem_cons.mp mem with same | later
  · omega
  · have above := (List.pairwise_cons.mp trial.rising).1 f.minFac later
    omega

/-- Below the square of the next prime, what is left is a prime itself. -/
private theorem Trial.prime_of_lt (trial : Trial bound (p :: ps) n) (more : 1 < n) (small : n < p * p) :
    n.Prime := by
  by_contra composite
  have first : n.minFac.Prime := Nat.minFac_prime (by omega)
  have square : n.minFac ^ 2 ≤ n := Nat.minFac_sq_le_self trial.pos composite
  have reach := trial.le_of_dvd first.one_lt n.minFac_dvd
  have large : p * p ≤ n := calc
    p * p ≤ n.minFac * n.minFac := Nat.mul_le_mul reach reach
    _ = n.minFac ^ 2 := (sq _).symm
    _ ≤ n := square
  omega

theorem Trial.past (trial : Trial bound ps n) : ∀ f ∈ trialDivide ps n, 1 < f ∧ FactorPast bound f := by
  fun_induction trialDivide ps n with
  | case1 n more =>
    intro f mem
    obtain rfl := List.mem_singleton.mp mem
    refine ⟨more, .inr ?_⟩
    intro q prime divides
    by_contra low
    exact absurd (trial.ahead q prime (not_lt.mp low) divides) List.not_mem_nil
  | case2 => simp
  | case3 p ps n small more =>
    intro f mem
    obtain rfl := List.mem_singleton.mp mem
    exact ⟨more, .inl (trial.prime_of_lt more small)⟩
  | case4 => simp
  | case5 p ps n large count rest eq ih =>
    have next := trial.next
    rw [eq] at next
    intro f mem
    rcases List.mem_append.mp mem with here | later
    · obtain rfl := List.eq_of_mem_replicate here
      have prime := (trial.primes f List.mem_cons_self).1
      exact ⟨prime.one_lt, .inl prime⟩
    · exact ih next f later

/-- The factors are found in increasing order, what is left at the end included. -/
theorem Trial.sorted (trial : Trial bound ps n) : (trialDivide ps n).Pairwise (· ≤ ·) := by
  fun_induction trialDivide ps n with
  | case1 n => exact List.pairwise_singleton _ n
  | case2 => exact List.Pairwise.nil
  | case3 p ps n => exact List.pairwise_singleton _ n
  | case4 => exact List.Pairwise.nil
  | case5 p ps n large count rest eq ih =>
    have next := trial.next
    rw [eq] at next
    have part : rest ∣ n := Dvd.intro_left _ (eq ▸ divideOut_mul p n)
    apply List.pairwise_append.mpr
    refine ⟨List.pairwise_replicate.mpr (.inr le_rfl), ih next, ?_⟩
    intro q here f later
    obtain rfl := List.eq_of_mem_replicate here
    apply trial.le_of_dvd (next.past f later).1
    exact (dvd_of_mem_trialDivide next.pos later).trans part

/-- All factors but the last are among the primes tried, so a property that these lack is one of one
factor at most. -/
private theorem length_filter_trialDivide (P : Nat → Bool) (n : Nat) (others : ∀ p ∈ ps, P p = false) :
    ((trialDivide ps n).filter P).length ≤ 1 := by
  fun_induction trialDivide ps n with
  | case1 n => exact List.length_filter_le P [n]
  | case2 => exact Nat.zero_le 1
  | case3 p ps n => exact List.length_filter_le P [n]
  | case4 => exact Nat.zero_le 1
  | case5 p ps n large count rest eq ih =>
    obtain ⟨here, later⟩ := List.forall_mem_cons.mp others
    rw [List.filter_append, List.filter_replicate_of_neg (by simp [here]), List.nil_append]
    exact ih later

end trial

/-- A number other than zero has factors, which multiply to its absolute value. -/
theorem factors_spec {v : Int} (nonzero : v ≠ 0) :
    ∃ fs, factors v = .ok fs ∧ fs.prod = v.natAbs := by
  refine ⟨_, if_neg nonzero, ?_⟩
  rw [List.prod_reverse, prod_trialDivide _ (Int.natAbs_pos.mpr nonzero)]

section factors

variable {v : Int} {fs : List Nat} {f q : Nat}

theorem ne_zero_of_factors (found : factors v = .ok fs) : v ≠ 0 := by
  rintro rfl
  simp [factors] at found

theorem prod_factors (found : factors v = .ok fs) : fs.prod = v.natAbs := by
  obtain ⟨fs', found', total⟩ := factors_spec (ne_zero_of_factors found)
  obtain rfl : fs' = fs := Except.ok.inj (found'.symm.trans found)
  exact total

/-- Factors come from trial division, the greatest first. -/
theorem trial_of_factors (found : factors v = .ok fs) :
    ∃ ps, Trial (min (floorSqrt v.natAbs) trialLimit) ps v.natAbs ∧
      fs = (trialDivide ps v.natAbs).reverse := by
  have nonzero := ne_zero_of_factors found
  have bound : (min (floorSqrt v.natAbs : Int) trialLimit).toNat =
      min (floorSqrt v.natAbs) trialLimit := by omega
  refine ⟨_, ?_, (Except.ok.inj ((if_neg nonzero).symm.trans found)).symm⟩
  rw [← bound]
  exact trial_primesTo _ (Int.natAbs_pos.mpr nonzero)

/-- Every factor is prime or has no prime divisor among those that are searched for. -/
theorem factors_past (found : factors v = .ok fs) :
    ∀ f ∈ fs, 1 < f ∧ FactorPast (min (floorSqrt v.natAbs) trialLimit) f := by
  obtain ⟨ps, trial, rfl⟩ := trial_of_factors found
  intro f mem
  exact trial.past f (List.mem_reverse.mp mem)

theorem factors_falling (found : factors v = .ok fs) : fs.Pairwise (· ≥ ·) := by
  obtain ⟨ps, trial, rfl⟩ := trial_of_factors found
  exact List.pairwise_reverse.mpr trial.sorted

/-- A property that no prime up to the limit has is one of one factor at most. -/
theorem length_filter_factors (found : factors v = .ok fs) (P : Nat → Bool)
    (others : ∀ p, p.Prime → p ≤ trialLimit → P p = false) : (fs.filter P).length ≤ 1 := by
  obtain ⟨ps, trial, rfl⟩ := trial_of_factors found
  rw [List.filter_reverse, List.length_reverse]
  apply length_filter_trialDivide
  intro p mem
  obtain ⟨prime, low⟩ := trial.primes p mem
  exact others p prime (low.trans (min_le_right _ _))

/-- A factor that is not prime has no prime divisor up to the limit. Its least one is not above the square
root of the number, so nothing but the limit kept it from being tried. -/
theorem limit_lt_of_composite (found : factors v = .ok fs) (mem : f ∈ fs) (composite : ¬ f.Prime)
    (prime : q.Prime) (divides : q ∣ f) : trialLimit < q := by
  obtain ⟨more, here | past⟩ := factors_past found f mem
  · exact absurd here composite
  have positive := Int.natAbs_pos.mpr (ne_zero_of_factors found)
  have part : f ∣ v.natAbs := prod_factors found ▸ List.dvd_prod mem
  have square : f.minFac * f.minFac ≤ f := by
    simpa [sq] using Nat.minFac_sq_le_self (by omega) composite
  have root : f.minFac ≤ floorSqrt v.natAbs :=
    le_floorSqrt.mpr (square.trans (Nat.le_of_dvd positive part))
  have least := past f.minFac (Nat.minFac_prime (by omega)) f.minFac_dvd
  have low := Nat.minFac_le_of_dvd prime.two_le divides
  omega

end factors

/-- The prime factors of a number past the limit, each as often as it divides. -/
def pastLimit (n : Nat) : List Nat := n.primeFactorsList.filter fun p => trialLimit < p

private theorem pastLimit_sublist {m n : Nat} (divides : m ∣ n) (nonzero : n ≠ 0) :
    (pastLimit m).Sublist (pastLimit n) :=
  (Nat.primeFactorsList_sublist_of_dvd divides nonzero).filter _

theorem pastLimit_eq_nil {n : Nat} (small : n ≤ trialLimit) : pastLimit n = [] := by
  refine List.filter_eq_nil_iff.mpr fun p hp => ?_
  have le := (Nat.le_of_mem_primeFactorsList hp).trans small
  simpa using le

section primes

variable {v : Int} {fs : List Nat}

/-- All factors are prime where at most one of them is past the limit. -/
theorem factors_prime_of_few (found : factors v = .ok fs) (few : (pastLimit v.natAbs).length ≤ 1) :
    ∀ f ∈ fs, f.Prime := by
  intro f mem
  by_contra composite
  have more := (factors_past found f mem).1
  have part : f ∣ v.natAbs := prod_factors found ▸ List.dvd_prod mem
  have all : pastLimit f = f.primeFactorsList := by
    apply List.filter_eq_self.mpr
    intro q hq
    obtain ⟨prime, divides⟩ := (Nat.mem_primeFactorsList (by omega)).mp hq
    exact decide_eq_true (limit_lt_of_composite found mem composite prime divides)
  have nonzero := Int.natAbs_ne_zero.mpr (ne_zero_of_factors found)
  have short := (pastLimit_sublist part nonzero).length_le.trans few
  have whole := Nat.prod_primeFactorsList (show f ≠ 0 by omega)
  rw [all] at short
  rcases list : f.primeFactorsList with _ | ⟨q, _ | ⟨q', qs⟩⟩
  · rw [list, List.prod_nil] at whole
    omega
  · rw [list, List.prod_singleton] at whole
    exact composite (whole ▸ Nat.prime_of_mem_primeFactorsList (list ▸ List.mem_singleton_self q))
  · rw [list] at short
    simp at short

/-- If the factors are prime, they are all the prime factors, and only the one that was left at the end
is past the limit. -/
private theorem few_of_factors_prime (found : factors v = .ok fs) (primes : ∀ f ∈ fs, f.Prime) :
    (pastLimit v.natAbs).length ≤ 1 := by
  have perm : fs.Perm v.natAbs.primeFactorsList :=
    Nat.primeFactorsList_unique (prod_factors found) primes
  have short := length_filter_factors found (fun p => trialLimit < p) (by simp)
  exact (perm.filter _).length_eq ▸ short

/-- Below the square of the first number past the limit, all factors are prime. -/
theorem factors_prime (found : factors v = .ok fs)
    (small : v.natAbs < (trialLimit + 1) * (trialLimit + 1)) : ∀ f ∈ fs, f.Prime := by
  apply factors_prime_of_few found
  have nonzero : v.natAbs ≠ 0 := Int.natAbs_ne_zero.mpr (ne_zero_of_factors found)
  have part : (pastLimit v.natAbs).prod ∣ v.natAbs := by
    refine (List.Sublist.prod_dvd_prod List.filter_sublist).trans ?_
    rw [Nat.prod_primeFactorsList nonzero]
  have past : ∀ p ∈ pastLimit v.natAbs, trialLimit < p := fun p hp =>
    of_decide_eq_true (List.mem_filter.mp hp).2
  generalize pastLimit v.natAbs = ps at part past ⊢
  rcases ps with _ | ⟨p, _ | ⟨q, ps⟩⟩
  · simp
  · simp
  · have first := past p (by simp)
    have second := past q (by simp)
    rw [List.prod_cons, List.prod_cons, ← mul_assoc] at part
    have le := Nat.le_of_dvd (Nat.pos_of_ne_zero nonzero) ((Dvd.intro _ rfl).trans part)
    have square : (trialLimit + 1) * (trialLimit + 1) ≤ p * q := Nat.mul_le_mul first second
    omega

/-- What the factors of `v` promise. They are prime but for one, which is a product of primes that are
not searched for; there is no such one if `v` has at most one prime factor past the limit. -/
structure Factorizes (v : Int) (fs : List Nat) : Prop where
  falling : fs.Pairwise (· ≥ ·)
  more : ∀ f ∈ fs, 1 < f
  total : fs.prod = v.natAbs
  none_iff : fs = [] ↔ v.natAbs = 1
  composites : (fs.filter fun f => ¬ f.Prime).length ≤ 1
  past : ∀ f ∈ fs, ¬ f.Prime → ∀ q, q.Prime → q ∣ f → 65536 < q
  small : v.natAbs < 65537 ^ 2 → ∀ f ∈ fs, f.Prime
  primes_iff : (∀ f ∈ fs, f.Prime) ↔
    (v.natAbs.primeFactorsList.filter fun p => 65536 < p).length ≤ 1

private theorem eq_nil_iff_of_factors (found : factors v = .ok fs) : fs = [] ↔ v.natAbs = 1 := by
  rw [← prod_factors found]
  constructor
  · intro none
    rw [none, List.prod_nil]
  · intro unit
    apply List.eq_nil_iff_forall_not_mem.mpr
    intro f mem
    have more := (factors_past found f mem).1
    have divides : f ∣ 1 := unit ▸ List.dvd_prod mem
    have one := Nat.dvd_one.mp divides
    omega

/-- Every number other than zero is factored as promised. -/
theorem factors_factorizes (nonzero : v ≠ 0) : ∃ fs, factors v = .ok fs ∧ Factorizes v fs := by
  obtain ⟨fs, found, total⟩ := factors_spec nonzero
  refine ⟨fs, found, ?_⟩
  constructor
  case falling => exact factors_falling found
  case more => exact fun f mem => (factors_past found f mem).1
  case total => exact total
  case none_iff => exact eq_nil_iff_of_factors found
  case composites =>
    apply length_filter_factors found
    intro p prime _
    simpa using prime
  case past => exact fun f mem composite q => limit_lt_of_composite found mem composite
  case small =>
    intro less
    exact factors_prime found (sq (65537 : Nat) ▸ less)
  case primes_iff => exact ⟨few_of_factors_prime found, factors_prime_of_few found⟩

/-- The square of the last prime that is tried: the prime divides it, as it is not below that square. -/
theorem factors_factorizes_square : (-78961 : Int) ≠ 0 ∧ factors (-78961) = .ok [281, 281] ∧
    ∃ fs, factors (-78961) = .ok fs ∧ Factorizes (-78961) fs :=
  ⟨by decide, by decide +kernel, factors_factorizes (by decide)⟩

end primes

end ShapeRecovery.Number
