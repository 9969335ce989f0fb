import Mathlib.Algebra.BigOperators.Group.List.Basic
import Mathlib.Algebra.GroupWithZero.Nat
import Mathlib.Algebra.Order.BigOperators.Group.List
import ShapeRecovery.Expr.Typing
import ShapeRecovery.Proofs.Expr.Steps

namespace ShapeRecovery.Expr

theorem weightSum_eq (es : List Expr) : weightSum es = (es.map weight).sum := by
  induction es with
  | nil => rfl
  | cons e es ih => rw [weightSum, ih, List.map_cons, List.sum_cons]

theorem weightProduct_eq (es : List Expr) : weightProduct es = (es.map weight).prod := by
  induction es with
  | nil => rfl
  | cons e es ih => rw [weightProduct, ih, List.map_cons, List.prod_cons]

@[simp] theorem weightSum_append (es fs : List Expr) :
    weightSum (es ++ fs) = weightSum es + weightSum fs := by
  simp [weightSum_eq]

@[simp] theorem weightProduct_append (es fs : List Expr) :
    weightProduct (es ++ fs) = weightProduct es * weightProduct fs := by
  simp [weightProduct_eq]

theorem weightSum_perm {es fs : List Expr} (h : es.Perm fs) : weightSum es = weightSum fs := by
  simpa only [weightSum_eq] using (h.map weight).sum_eq

theorem weightProduct_perm {es fs : List Expr} (h : es.Perm fs) :
    weightProduct es = weightProduct fs := by
  simpa only [weightProduct_eq] using (h.map weight).prod_eq

mutual

theorem weight_pos : ∀ e : Expr, 0 < weight e
  | const .. | unknown .. | uncomputable => by simp [weight]
  | nary .sum [] => by simp [weight, weightSum, padding]
  | nary .sum (e :: es) => by
    have h := weight_pos e
    simp only [weight, weightSum]
    omega
  | nary .product es => by
    have h := weightProduct_pos es
    simp only [weight]
    omega
  | nary .signedMax _ | nary .unsignedMax _ => by
    simp only [weight]
    omega
  | quotient .. => by
    simp only [weight]
    omega
  | cast _ arg _ => by
    simpa only [weight] using weight_pos arg
  | recurrence .. => by
    simp only [weight]
    omega

theorem weightProduct_pos : ∀ es : List Expr, 0 < weightProduct es
  | [] => by simp [weightProduct]
  | e :: es => by
    simpa only [weightProduct] using Nat.mul_pos (weight_pos e) (weightProduct_pos es)

end

theorem length_le_weightSum (es : List Expr) : es.length ≤ weightSum es := by
  induction es with
  | nil => simp
  | cons e es ih =>
    have h := weight_pos e
    simp only [weightSum, List.length_cons]
    omega

/-- The other operands of a sum weigh at least one each. -/
theorem weight_add_length_le {e : Expr} {es : List Expr} (h : e ∈ es) :
    weight e + es.length ≤ weightSum es + 1 := by
  obtain ⟨before, after, rfl⟩ := List.append_of_mem h
  have h₁ := length_le_weightSum before
  have h₂ := length_le_weightSum after
  simp only [weightSum_append, weightSum, List.length_append, List.length_cons]
  omega

/-- Leaving out factors makes a product lighter. -/
theorem weightProduct_sublist {es fs : List Expr} (h : es.Sublist fs) :
    weightProduct es ≤ weightProduct fs := by
  induction h with
  | slnil => rfl
  | cons e _ ih =>
    simp only [weightProduct]
    exact ih.trans (Nat.le_mul_of_pos_left _ (weight_pos e))
  | cons_cons e _ ih =>
    simp only [weightProduct]
    exact Nat.mul_le_mul_left _ ih

theorem weight_sum {es : List Expr} (several : 2 ≤ es.length) :
    weight (sum es) = weightSum es := by
  simp only [weight, padding, if_neg (by omega : ¬ es.length < 2), Nat.zero_add]

theorem weight_product {es : List Expr} (several : 2 ≤ es.length) :
    weight (product es) = weightProduct es := by
  simp only [weight, padding, if_neg (by omega : ¬ es.length < 2), Nat.zero_add]

theorem weight_recur_le (a b : Expr) (l : Loop) : weight (recur a b l) ≤ 1 + weight a + weight b := by
  refine recur_induction (P := fun e => weight e ≤ 1 + weight a + weight b) l ?_ (fun _ => by omega)
    fun _ => by rw [weight]
  simp only [weight]
  omega

end ShapeRecovery.Expr
