import ShapeRecovery.Proofs.Expr.Constants
import ShapeRecovery.Proofs.Memory.Pointer
import ShapeRecovery.Shape.Subscripts

namespace ShapeRecovery

open ShapeRecovery.Expr

theorem Expr.WellFormed.resize_isConst {e : Expr} {w : Int} (fit : e.WellFormed) (pos : 0 < w)
    (isConst : e.isConst = true) :
    resize w e = .ok (const ((constantOf e).bmod (Word.modulus w)) w) := by
  cases e with
  | const v b =>
    rcases fit with undone | ⟨u, typed⟩
    · cases undone
    · obtain rfl := typed.const_bits
      exact resize_constant pos typed
  | _ => simp [Expr.isConst] at isConst

namespace ArrayShape

variable {w : Int} {dims : List Dimension} {s t j n : Nat}

/-- All dimensions from `s` on have sizes from the declaration. -/
def HintedFrom (dims : List Dimension) (s : Nat) : Prop :=
  ∀ dim ∈ dims.drop s, dim.hinted = true

/-- The first inner dimension from which on all sizes come from the declaration. -/
structure FirstHinted (dims : List Dimension) (s : Nat) : Prop where
  inner : 1 ≤ s
  hinted : HintedFrom dims s
  least : ∀ t, 1 ≤ t → HintedFrom dims t → s ≤ t

theorem FirstHinted.unique (first : FirstHinted dims s) (other : FirstHinted dims t) : s = t :=
  Nat.le_antisymm (first.least t other.inner other.hinted) (other.least s first.inner first.hinted)

theorem beforeHinted_first (some : 1 ≤ n) (within : n ≤ dims.length) (hinted : HintedFrom dims n) :
    FirstHinted dims (beforeHinted dims n) := by
  fun_induction beforeHinted dims n with
  | case1 => omega
  | case2 => exact ⟨le_rfl, hinted, fun t inner _ => inner⟩
  | case3 d dim here declared ih =>
    refine ih (by omega) (by omega) ?_
    obtain ⟨inside, rfl⟩ := List.getElem?_eq_some_iff.mp here
    rw [HintedFrom, List.drop_eq_getElem_cons inside]
    exact List.forall_mem_cons.mpr ⟨declared, hinted⟩
  | case4 d dim here undeclared =>
    refine ⟨by omega, hinted, fun t _ all => ?_⟩
    by_contra below
    -- The dimension that is not hinted would be one of those from `t` on.
    have inside : dims[d + 1]? = (dims.drop t)[d + 1 - t]? := by
      rw [List.getElem?_drop, Nat.add_sub_cancel' (by omega)]
    exact undeclared (all dim (List.mem_of_getElem? (inside ▸ here)))
  | case5 d absent =>
    have := List.getElem?_eq_none_iff.mp absent
    omega

theorem FirstHinted.beforeHinted_eq (first : FirstHinted dims s) :
    beforeHinted dims dims.length - 1 = s - 1 := by
  rcases Nat.eq_zero_or_pos dims.length with none | some
  · have inner := first.least 1 le_rfl (by simp [HintedFrom, List.eq_nil_of_length_eq_zero none])
    rw [none, beforeHinted]
    omega
  · rw [(beforeHinted_first some le_rfl (by simp [HintedFrom])).unique first]

theorem exists_firstHinted (dims : List Dimension) : ∃ s, FirstHinted dims s := by
  rcases Nat.eq_zero_or_pos dims.length with none | some
  · obtain rfl := List.eq_nil_of_length_eq_zero none
    exact ⟨1, le_rfl, by simp [HintedFrom], fun t inner _ => inner⟩
  · exact ⟨_, beforeHinted_first some le_rfl (by simp [HintedFrom])⟩

theorem FirstHinted.le_length (first : FirstHinted dims s) : s ≤ max 1 dims.length := by
  refine first.least _ (Nat.le_max_left ..) ?_
  rw [HintedFrom, List.drop_eq_nil_of_le (Nat.le_max_right ..)]
  simp

/-- The product of the sizes of the dimensions after `j` and before `s`, as a word. -/
def innerSizes (w : Int) (dims : List Dimension) (s j : Nat) : Expr :=
  const ((((dims.take s).drop (j + 1)).map fun dim => constantOf dim.size).prod.bmod (Word.modulus w)) w

/-- Going outward from `s`, the sizes of all dimensions after `j` are constants. -/
structure Reached (dims : List Dimension) (s j : Nat) : Prop where
  before : j + 1 < s
  constant : ∀ dim ∈ (dims.take s).drop (j + 1), dim.size.isConst = true

theorem Reached.mono (reached : Reached dims s j) (inner : j ≤ t) (before : t + 1 < s) :
    Reached dims s t :=
  ⟨before, fun dim mem => reached.constant dim ((List.drop_sublist_drop_left _ (by omega)).subset mem)⟩

theorem innerSizes_typed (pos : 0 < w) (dims : List Dimension) (s j : Nat) :
    HasBits (innerSizes w dims s j) w :=
  hasBits_const_bmod pos _

/-- The dimensions after `j`, one at a time. -/
theorem dims_after {dim : Dimension} (before : j + 1 < s) (here : dims[j + 1]? = some dim) :
    (dims.take s).drop (j + 1) = dim :: (dims.take s).drop (j + 2) := by
  have within : (dims.take s)[j + 1]? = some dim := by rw [List.getElem?_take_of_lt before, here]
  obtain ⟨inside, rfl⟩ := List.getElem?_eq_some_iff.mp within
  exact List.drop_eq_getElem_cons inside

/-- Right before `s` there is nothing to divide by. -/
theorem innerSizes_last (w : Int) (dims : List Dimension) (inner : 1 ≤ s) :
    innerSizes w dims s (s - 1) = const (Int.bmod 1 (Word.modulus w)) w := by
  have none : (dims.take s).drop (s - 1 + 1) = [] := List.drop_eq_nil_of_le (by simp; omega)
  simp [innerSizes, none]

/-- The next size outward is multiplied to those inside. -/
theorem productOf_innerSizes (iw : Int) (pos : 0 < w) {dim : Dimension} (before : j + 1 < s)
    (here : dims[j + 1]? = some dim) :
    productOf iw [innerSizes w dims s (j + 1), const ((constantOf dim.size).bmod (Word.modulus w)) w] =
      .ok (innerSizes w dims s j) := by
  rw [innerSizes, innerSizes, dims_after before here,
    productOf_constants iw (hasBits_const_bmod pos _) (hasBits_const_bmod pos _), List.map_cons,
    List.prod_cons, Int.bmod_mul_bmod, Int.mul_bmod_bmod, mul_comm]

end ArrayShape

end ShapeRecovery
