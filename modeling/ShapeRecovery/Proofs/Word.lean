import Mathlib.Data.ZMod.Basic
import ShapeRecovery.Expr.Typing
import ShapeRecovery.Expr.Meaning

namespace ShapeRecovery.Word

variable {w : Int}

theorem modulus_pos (w : Int) : 0 < modulus w :=
  Nat.pow_pos (by decide)

/-- A word of a positive width has as many negative readings as others. -/
theorem modulus_eq_double (pos : 0 < w) : modulus w = 2 * modulus (w - 1) := by
  have step : w.toNat = (w - 1).toNat + 1 := by omega
  simp only [modulus, step]
  exact Nat.pow_succ'

theorem signed_eq (pos : 0 < w) (v : Int) : signed v w = .ok (v.bmod (modulus w)) :=
  if_neg (by omega)

theorem unsigned_eq (pos : 0 < w) (v : Int) : unsigned v w = .ok (v % modulus w) :=
  if_neg (by omega)

theorem inRange_bmod (pos : 0 < w) (v : Int) : InRange (v.bmod (modulus w)) w := by
  have double := modulus_eq_double pos
  have low := Int.le_bmod (x := v) (modulus_pos w)
  have high := Int.bmod_lt (x := v) (modulus_pos w)
  constructor <;> omega

/-- An integer of the signed range is its own signed reading. -/
theorem bmod_of_inRange (pos : 0 < w) {v : Int} (h : InRange v w) : v.bmod (modulus w) = v := by
  have double := modulus_eq_double pos
  have bounds : -(modulus (w - 1) : Int) ≤ v ∧ v < modulus (w - 1) := h
  refine (Int.bmod_eq_iff (modulus_pos w)).mpr ⟨?_, ?_, ?_⟩
  · omega
  · omega
  · simp

theorem natAbs_le_of_inRange {v : Int} (h : InRange v w) : v.natAbs ≤ modulus (w - 1) := by
  have bounds : -(modulus (w - 1) : Int) ≤ v ∧ v < modulus (w - 1) := h
  omega

/-- Half the modulus is read as its negation, and what is nearer to zero as itself. -/
theorem natAbs_bmod (pos : 0 < w) {v : Int} (le : v.natAbs ≤ modulus (w - 1)) :
    (v.bmod (modulus w)).natAbs = v.natAbs := by
  have double := modulus_eq_double pos
  have half := modulus_pos (w - 1)
  by_cases top : v = modulus (w - 1)
  · have other : v.bmod (modulus w) = -modulus (w - 1) := by
      refine (Int.bmod_eq_iff (modulus_pos w)).mpr ⟨?_, ?_, ⟨-1, ?_⟩⟩
      all_goals omega
    rw [other, top, Int.natAbs_neg]
  · rw [bmod_of_inRange pos ⟨by omega, by omega⟩]

/-- A remainder is no further from zero, and on the same side. -/
theorem inRange_tmod {c : Int} (h : InRange c w) (d : Int) : InRange (c.tmod d) w := by
  have bounds : -(modulus (w - 1) : Int) ≤ c ∧ c < modulus (w - 1) := h
  have size : (c.tmod d).natAbs ≤ c.natAbs := by
    rw [Int.natAbs_tmod]
    exact Nat.mod_le _ _
  rcases Int.le_total 0 c with sign | sign
  · have same := Int.tmod_nonneg d sign
    constructor <;> omega
  · have same := Int.tmod_nonneg d (Int.neg_nonneg_of_nonpos sign)
    rw [Int.neg_tmod] at same
    constructor <;> omega

/-- Zero is the only integer of the signed range that is read as zero. -/
theorem emod_ne_zero (pos : 0 < w) {v : Int} (h : InRange v w) (nonzero : v ≠ 0) :
    v % modulus w ≠ 0 := by
  have double := modulus_eq_double pos
  have bounds : -(modulus (w - 1) : Int) ≤ v ∧ v < modulus (w - 1) := h
  have half := modulus_pos (w - 1)
  intro none
  refine nonzero (Int.eq_zero_of_abs_lt_dvd (Int.dvd_of_emod_eq_zero none) (abs_lt.mpr ?_))
  constructor <;> omega

@[simp] theorem cast_bmod (v : Int) (n : Nat) : ((v.bmod n : Int) : ZMod n) = v := by
  refine (ZMod.intCast_eq_intCast_iff_dvd_sub _ _ _).mpr ?_
  exact Int.dvd_self_sub_bmod

@[simp] theorem cast_emod (v : Int) (n : Nat) : ((v % n : Int) : ZMod n) = v := by
  simp

/-- A residue has one reading in the signed range. -/
theorem eq_bmod_of_cast_eq (pos : 0 < w) {v x : Int} (inRange : InRange v w)
    (same : (v : ZMod (modulus w)) = (x : ZMod (modulus w))) : v = x.bmod (modulus w) := by
  have residue : v % modulus w = x % modulus w := (ZMod.intCast_eq_intCast_iff v x _).mp same
  rw [← Int.emod_bmod, ← residue, Int.emod_bmod, bmod_of_inRange pos inRange]

theorem modulus_dvd {b : Int} (le : w ≤ b) : modulus w ∣ modulus b :=
  Nat.pow_dvd_pow 2 (Int.toNat_le_toNat le)

/-- The unsigned reading of a word of more bits has the same residue. -/
theorem cast_readUnsigned {b : Int} (le : w ≤ b) (v : Int) :
    ((Expr.readUnsigned b v : Int) : ZMod (modulus w)) = v := by
  have multiple : (modulus w : Int) ∣ modulus b := by exact_mod_cast modulus_dvd le
  exact (ZMod.intCast_eq_intCast_iff_dvd_sub _ _ _).mpr (multiple.trans Int.dvd_self_sub_emod)

end ShapeRecovery.Word
