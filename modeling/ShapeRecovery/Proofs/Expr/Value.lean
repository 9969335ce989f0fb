import Mathlib.Algebra.BigOperators.Ring.List
import Mathlib.Tactic.LinearCombination
import Mathlib.Tactic.Ring
import ShapeRecovery.Proofs.Expr.Order

namespace ShapeRecovery.Expr

/-- The word of `w` bits that `e` stands for. -/
def value (w : Int) (ρ : Valuation) (e : Expr) : ZMod (Word.modulus w) :=
  (e.meaning ρ : ZMod (Word.modulus w))

section value

variable (w : Int) (ρ : Valuation)

@[simp] theorem value_const (v b : Int) : value w ρ (const v b) = (v : ZMod (Word.modulus w)) := by
  rw [value, meaning]

@[simp] theorem value_sum (es : List Expr) :
    value w ρ (nary .sum es) = (es.map (value w ρ)).sum := by
  rw [value, meaning, meanings_eq_map]
  induction es with
  | nil => simp
  | cons e es ih =>
    simp only [List.map_cons, List.foldr_cons, List.sum_cons, Int.cast_add, ih]
    rfl

@[simp] theorem value_product (es : List Expr) :
    value w ρ (nary .product es) = (es.map (value w ρ)).prod := by
  rw [value, meaning, meanings_eq_map]
  induction es with
  | nil => simp
  | cons e es ih =>
    simp only [List.map_cons, List.foldr_cons, List.prod_cons, Int.cast_mul, ih]
    rfl

@[simp] theorem value_recurrence (a b : Expr) (l : Loop) :
    value w ρ (recurrence a b l) = value w ρ a + value w ρ b * (ρ.count l : ZMod (Word.modulus w)) := by
  rw [value, meaning]
  push_cast
  rfl

/-- Equal words are equal residues. -/
theorem value_eq_iff {a b : Expr} :
    value w ρ a = value w ρ b ↔ readUnsigned w (a.meaning ρ) = readUnsigned w (b.meaning ρ) :=
  ZMod.intCast_eq_intCast_iff _ _ _

private theorem sum_flatten (es : List Expr) :
    ((flatten .sum es).map (value w ρ)).sum = (es.map (value w ρ)).sum := by
  induction es using flatten_induction .sum with
  | nil => rfl
  | node fs es ih => simp [ih]
  | other e es apart ih => simp [flatten_other apart, ih]

private theorem prod_flatten (es : List Expr) :
    ((flatten .product es).map (value w ρ)).prod = (es.map (value w ρ)).prod := by
  induction es using flatten_induction .product with
  | nil => rfl
  | node fs es ih => simp [ih]
  | other e es apart ih => simp [flatten_other apart, ih]

theorem value_of_isZero {e : Expr} (h : e.isZero = true) : value w ρ e = 0 := by
  cases e with
  | const v _ =>
    have : v = 0 := by simpa [isZero] using h
    simp [this]
  | _ => simp [isZero] at h

theorem value_of_isOne {e : Expr} (h : e.isOne = true) : value w ρ e = 1 := by
  cases e with
  | const v _ =>
    have : v = 1 := by simpa [isOne] using h
    simp [this]
  | _ => simp [isOne] at h

end value

/-- By how much a result exceeds the value it should have, under each valuation. -/
abbrev Gap := Valuation → Int

/-- What operands weigh together under an operator. -/
def weightOf : Nary → List Expr → Nat
  | .product => weightProduct
  | _ => weightSum

/-- All the loops of a set have made the same number of iterations. -/
def InStep (L : Loop → Prop) (ρ : Valuation) : Prop :=
  ∀ l m, L l → L m → ρ.count l = ρ.count m

/-- Under the operator `op` the operands `fs` can stand for `es`: they are values of `w` bits, weigh no
more, are made of the same leaves and loops, and come to the same value up to the gap. There is no
gap where the loops are in step. -/
structure Same (op : Nary) (w : Int) (gap : Gap) (es fs : List Expr) : Prop where
  typed : AllBits fs w
  weight_le : weightOf op fs ≤ weightOf op es
  built : ∀ (A : Expr → Prop) (L : Loop → Prop),
    (∀ e ∈ es, BuiltOver A L e) → ∀ f ∈ fs, BuiltOver A L f
  total : ∀ ρ, value w ρ (nary op fs) = value w ρ (nary op es) + gap ρ
  noGap : ∀ (L : Loop → Prop) (ρ : Valuation), (∀ e ∈ es, BuiltOver (fun _ => True) L e) →
    InStep L ρ → gap ρ = 0

namespace Same

variable {op : Nary} {w : Int} {g h : Gap} {es fs gs : List Expr} {r : Expr}

theorem trans (first : Same op w g es fs) (next : Same op w h fs gs) :
    Same op w (g + h) es gs where
  typed := next.typed
  weight_le := next.weight_le.trans first.weight_le
  built A L within := next.built A L (first.built A L within)
  total ρ := by
    rw [next.total ρ, first.total ρ, Pi.add_apply]
    push_cast
    ring
  noGap L ρ within step := by
    have h₁ := first.noGap L ρ within step
    have h₂ := next.noGap L ρ (first.built _ L within) step
    simp [h₁, h₂]

/-- Only the values of the gap count. -/
theorem congr_gap (same : Same op w g es fs) (eq : ∀ ρ, g ρ = h ρ) : Same op w h es fs :=
  (funext eq : g = h) ▸ same

theorem hasBits (same : Same op w g es [r]) : HasBits r w :=
  same.typed r (by simp)

theorem built_single (same : Same op w g es [r]) {A : Expr → Prop} {L : Loop → Prop}
    (within : ∀ e ∈ es, BuiltOver A L e) : BuiltOver A L r :=
  same.built A L within r (by simp)

theorem refl (typed : AllBits es w) : Same op w 0 es es where
  typed := typed
  weight_le := le_rfl
  built _ _ within := within
  total ρ := by simp
  noGap _ _ _ _ := rfl

/-- Terms that stand for others in one sum do so beside further terms. -/
theorem append {es' fs' : List Expr} (left : Same .sum w g es fs) (right : Same .sum w h es' fs') :
    Same .sum w (g + h) (es ++ es') (fs ++ fs') where
  typed := AllBits.append.mpr ⟨left.typed, right.typed⟩
  weight_le := by
    have h₁ := left.weight_le
    have h₂ := right.weight_le
    simp only [weightOf, weightSum_append] at h₁ h₂ ⊢
    omega
  built A L within := by
    have h₁ := left.built A L fun e he => within e (by simp [he])
    have h₂ := right.built A L fun e he => within e (by simp [he])
    intro f hf
    exact (List.mem_append.mp hf).elim (h₁ f) (h₂ f)
  total ρ := by
    have h₁ := left.total ρ
    have h₂ := right.total ρ
    simp only [value_sum, List.map_append, List.sum_append, Pi.add_apply, Int.cast_add] at h₁ h₂ ⊢
    linear_combination h₁ + h₂
  noGap L ρ within step := by
    have h₁ := left.noGap L ρ (fun e he => within e (by simp [he])) step
    have h₂ := right.noGap L ρ (fun e he => within e (by simp [he])) step
    simp [h₁, h₂]

theorem weight_single (same : Same .sum w g es [r]) : weight r ≤ weightSum es := by
  simpa [weightOf, weightSum] using same.weight_le

theorem value_single (same : Same .sum w g es [r]) (ρ : Valuation) :
    value w ρ r = (es.map (value w ρ)).sum + g ρ := by
  simpa using same.total ρ

theorem weight_single_product (same : Same .product w g es [r]) : weight r ≤ weightProduct es := by
  simpa [weightOf, weightProduct] using same.weight_le

theorem value_single_product (same : Same .product w g es [r]) (ρ : Valuation) :
    value w ρ r = (es.map (value w ρ)).prod + g ρ := by
  simpa using same.total ρ

section ring

variable (ring : op = .sum ∨ op = .product)

include ring

theorem of_perm (perm : fs.Perm es) (typed : AllBits es w) : Same op w 0 es fs where
  typed := typed.perm perm.symm
  weight_le := by
    rcases ring with rfl | rfl
    · exact (weightSum_perm perm).le
    · exact (weightProduct_perm perm).le
  built _ _ within e he := within e (perm.mem_iff.mp he)
  total ρ := by
    rcases ring with rfl | rfl
    · simpa using (perm.map (value w ρ)).sum_eq
    · simpa using (perm.map (value w ρ)).prod_eq
  noGap _ _ _ _ := rfl

theorem flatten (typed : AllBits es w) : Same op w 0 es (flatten op es) where
  typed := allBits_flatten typed
  weight_le := by
    rcases ring with rfl | rfl
    · exact (weightSum_flatten typed).le
    · exact (weightProduct_flatten typed).le
  built _ _ := builtOver_flatten ring
  total ρ := by
    rcases ring with rfl | rfl
    · simpa using sum_flatten w ρ es
    · simpa using prod_flatten w ρ es
  noGap _ _ _ _ := rfl

/-- A sorted node stands for its operands. -/
theorem arranged (h : Arranged op es r) (typed : AllBits es w) (some : es ≠ []) :
    Same op w 0 es [r] := by
  have single := h.hasBits typed some
  rcases h with rfl | ⟨many, fs, perm, rfl⟩
  · exact refl typed
  · have several := (HasBits.nary_iff.mp single).1
    refine (of_perm ring perm typed).trans (h := 0) ⟨by simpa using single, ?_, ?_, ?_,
      fun _ _ _ _ => rfl⟩
    · rcases ring with rfl | rfl
      · simp [weightOf, weightSum, weight_sum several]
      · simp [weightOf, weightProduct, weight_product several]
    · intro A L within f hf
      rw [List.mem_singleton.mp hf]
      rcases ring with rfl | rfl
      · exact .sum within
      · exact .product within
    · intro ρ
      rcases ring with rfl | rfl <;> simp

end ring

end Same

end ShapeRecovery.Expr
