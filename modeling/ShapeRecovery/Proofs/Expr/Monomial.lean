import ShapeRecovery.Proofs.Expr.Nest

namespace ShapeRecovery.Expr

/-- An expression of `w` bits that sums, products and divisions by constants take as a whole. -/
structure Leaf (w : Int) (e : Expr) : Prop where
  whole : e.isLeaf = true
  typed : HasBits e w

/-- The integer that a monomial starts with, one if there is none. -/
def coefficient : Expr → Int
  | const v _ => v
  | nary .product (const v _ :: _) => v
  | _ => 1

/-- The factors of a monomial besides its coefficient. -/
def leaves : Expr → List Expr
  | const .. => []
  | nary .product (const .. :: factors) => factors
  | nary .product factors => factors
  | e => [e]

@[simp] theorem coefficient_const (v b : Int) : coefficient (const v b) = v := rfl

@[simp] theorem leaves_const (v b : Int) : leaves (const v b) = [] := rfl

@[simp] theorem leaves_scaled (v b : Int) (es : List Expr) :
    leaves (product (const v b :: es)) = es := rfl

/-- A constant other than zero, or a product of leaves with or without such a constant in front. -/
inductive Monomial (w : Int) : Expr → Prop
  | const {v : Int} (some : v ≠ 0) (bounded : v.natAbs < nestBound w) : Monomial w (.const v w)
  | leaf {e : Expr} (leaf : Leaf w e) : Monomial w e
  | product {es : List Expr} (several : 2 ≤ es.length) (leaves : ∀ e ∈ es, Leaf w e) :
    Monomial w (.nary .product es)
  | scaled {v : Int} {es : List Expr} (some : v ≠ 0) (other : v ≠ 1)
    (bounded : v.natAbs < nestBound w) (several : es ≠ []) (leaves : ∀ e ∈ es, Leaf w e) :
    Monomial w (.nary .product (.const v w :: es))

variable {w : Int} {e : Expr} {es : List Expr}

namespace Leaf

theorem isConst (leaf : Leaf w e) : e.isConst = false := by
  obtain ⟨whole, -⟩ := leaf
  cases e <;> simp_all [isLeaf, Expr.isConst]

theorem isRecurrence (leaf : Leaf w e) : e.isRecurrence = false := by
  obtain ⟨whole, -⟩ := leaf
  cases e <;> simp_all [isLeaf, Expr.isRecurrence]

theorem isZero (leaf : Leaf w e) : e.isZero = false := by
  obtain ⟨whole, -⟩ := leaf
  cases e <;> simp_all [isLeaf, Expr.isZero]

theorem ne_nary (leaf : Leaf w e) {op : Nary} (opened : op = .sum ∨ op = .product) (fs : List Expr) :
    e ≠ nary op fs := by
  rintro rfl
  obtain ⟨whole, -⟩ := leaf
  rcases opened with rfl | rfl <;> simp [isLeaf] at whole

theorem coefficient (leaf : Leaf w e) : coefficient e = 1 := by
  obtain ⟨whole, -⟩ := leaf
  unfold Expr.coefficient
  split <;> simp_all [isLeaf]

theorem leaves (leaf : Leaf w e) : leaves e = [e] := by
  obtain ⟨whole, -⟩ := leaf
  unfold Expr.leaves
  split <;> simp_all [isLeaf]

theorem factorsOf (leaf : Leaf w e) : factorsOf e = [e] := by
  obtain ⟨whole, -⟩ := leaf
  unfold Expr.factorsOf
  split <;> simp_all [isLeaf]

end Leaf

theorem coefficient_product (several : 2 ≤ es.length) (each : ∀ e ∈ es, Leaf w e) :
    coefficient (product es) = 1 ∧ leaves (product es) = es := by
  match es with
  | e :: es =>
    have first := (each e (by simp)).isConst
    cases e with
    | const v b => simp [isConst] at first
    | _ => exact ⟨rfl, rfl⟩

namespace Monomial

theorem hasBits (term : Monomial w e) (pos : 0 < w) : HasBits e w := by
  have number {v : Int} (bounded : v.natAbs < nestBound w) : HasBits (.const v w) w :=
    (searchable_of_bounded bounded).1.hasBits pos
  cases term with
  | const _ bounded => exact number bounded
  | leaf leaf => exact leaf.typed
  | product several leaves => exact .nary several fun e he => (leaves e he).typed
  | scaled _ _ bounded several leaves =>
    have length := List.length_pos_of_ne_nil several
    refine .nary (by rw [List.length_cons]; omega) ?_
    simpa using ⟨number bounded, fun e he => (leaves e he).typed⟩

/-- The coefficient is small, and not zero. -/
theorem coefficient_bounded (term : Monomial w e) (wide : 2 ≤ w) :
    (coefficient e).natAbs < nestBound w ∧ coefficient e ≠ 0 := by
  have unit : (1 : Int).natAbs < nestBound w := lt_min (by decide) (small_one wide)
  cases term with
  | const some bounded => exact ⟨bounded, some⟩
  | leaf leaf => exact leaf.coefficient ▸ ⟨unit, one_ne_zero⟩
  | product several leaves =>
    rw [(coefficient_product several leaves).1]
    exact ⟨unit, one_ne_zero⟩
  | scaled some _ bounded _ _ => exact ⟨bounded, some⟩

theorem isZero (term : Monomial w e) : e.isZero = false := by
  cases term with
  | const some _ => simpa [Expr.isZero] using some
  | leaf leaf => exact leaf.isZero
  | product _ _ => rfl
  | scaled _ _ _ _ _ => rfl

theorem leaf_of_mem (term : Monomial w e) : ∀ a ∈ leaves e, Leaf w a := by
  cases term with
  | const _ _ => simp [leaves]
  | leaf leaf => simpa [leaf.leaves] using leaf
  | product several each => rwa [(coefficient_product several each).2]
  | scaled _ _ _ _ each => exact each

/-- A monomial without leaves is a constant. -/
theorem isConst_iff (term : Monomial w e) : e.isConst = true ↔ leaves e = [] := by
  cases term with
  | const _ _ => simp [isConst]
  | leaf leaf => simp [leaf.isConst, leaf.leaves]
  | @product es several each =>
    rw [(coefficient_product several each).2]
    have some := List.ne_nil_of_length_pos (show 0 < es.length by omega)
    simp [isConst, some]
  | scaled _ _ _ several _ => simpa [isConst, leaves] using several

end Monomial

section product

theorem flatten_product (es : List Expr) : flatten .product es = es.flatMap factorsOf := by
  induction es with
  | nil => rfl
  | cons e es ih =>
    rw [List.flatMap_cons, ← ih]
    cases e with
    | nary op fs => cases op <;> simp [flatten, factorsOf]
    | _ => rfl

theorem constantFactor_leaves {fs : List Expr} (each : ∀ f ∈ fs, Leaf w f) (c : Int)
    (rest : List Expr) : constantFactor w c (fs ++ rest) = constantFactor w c rest := by
  induction fs with
  | nil => rfl
  | cons f fs ih =>
    have first := (each f (by simp)).isConst
    rw [← ih fun g hg => each g (by simp [hg])]
    cases f with
    | const v b => simp [isConst] at first
    | _ => rfl

private theorem constantFactor_monomial (pos : 0 < w) (term : Monomial w e) (c : Int) (rest : List Expr) :
    constantFactor w (c.bmod (Word.modulus w)) (factorsOf e ++ rest) =
      constantFactor w ((c * coefficient e).bmod (Word.modulus w)) rest := by
  have constant (v : Int) (fs : List Expr) :
      constantFactor w (c.bmod (Word.modulus w)) (const v w :: fs) =
        constantFactor w ((c * v).bmod (Word.modulus w)) fs := by
    simp only [constantFactor, Word.signed_eq pos, ok_bind, Int.bmod_mul_bmod]
  cases term with
  | const _ _ => exact constant _ rest
  | leaf leaf =>
    rw [leaf.factorsOf, leaf.coefficient, mul_one]
    exact constantFactor_leaves (by simpa using leaf) _ _
  | product several each =>
    rw [(coefficient_product several each).1, mul_one]
    exact constantFactor_leaves each _ _
  | scaled _ _ _ _ each =>
    exact (constant _ _).trans (constantFactor_leaves each _ _)

/-- The constants among the factors of monomials multiply to the product of the coefficients. -/
private theorem constantFactor_monomials (pos : 0 < w) (terms : ∀ e ∈ es, Monomial w e) (c : Int) :
    constantFactor w (c.bmod (Word.modulus w)) (es.flatMap factorsOf) =
      .ok ((c * (es.map coefficient).prod).bmod (Word.modulus w)) := by
  induction es generalizing c with
  | nil => simp [constantFactor]
  | cons e es ih =>
    rw [List.flatMap_cons, constantFactor_monomial pos (terms e (by simp)),
      ih (fun f hf => terms f (by simp [hf])), List.map_cons, List.prod_cons, mul_assoc]

theorem filter_leaves {fs : List Expr} (each : ∀ f ∈ fs, Leaf w f) :
    (fs.filter fun o => !o.isConst) = fs :=
  List.filter_eq_self.mpr fun f hf => by simp [(each f hf).isConst]

private theorem filter_factors (terms : ∀ e ∈ es, Monomial w e) :
    ((es.flatMap factorsOf).filter fun o => !o.isConst) = es.flatMap leaves := by
  have single : ∀ e ∈ es, ((factorsOf e).filter fun o => !o.isConst) = leaves e := by
    intro e he
    cases terms e he with
    | const _ _ => rfl
    | leaf leaf => simp [leaf.factorsOf, leaf.leaves, leaf.isConst]
    | product several each =>
      rw [(coefficient_product several each).2]
      exact filter_leaves each
    | scaled _ _ _ _ each => exact filter_leaves each
  rw [List.filter_flatMap]
  exact List.flatMap_congr single

/-- Leaves in canonical order behind a coefficient are a monomial. -/
private theorem ordered_monomial {c : Int} {as : List Expr} (nonzero : c ≠ 0) (bounded : c.natAbs < nestBound w)
    (some : as ≠ []) (each : ∀ a ∈ as, Leaf w a) :
    ∃ r, ordered .product ((if c = 1 then [] else [const c w]) ++ as) = .ok r ∧ Monomial w r ∧
      coefficient r = c ∧ (leaves r).Perm as := by
  have texts : ∀ a ∈ as, ∃ t, a.text = .ok t := fun a ha => (each a ha).typed.text
  by_cases one : c = 1
  · subst one
    obtain ⟨r, run, arranged⟩ := ordered_arranged .product texts
    refine ⟨r, run, ?_⟩
    rcases arranged with rfl | ⟨several, fs, perm, rfl⟩
    · have leaf := each r (by simp)
      exact ⟨.leaf leaf, leaf.coefficient, by rw [leaf.leaves]⟩
    · have length := perm.length_eq
      have filled := List.length_pos_of_ne_nil some
      have many : 2 ≤ fs.length := by omega
      have each' : ∀ f ∈ fs, Leaf w f := fun f hf => each f (perm.mem_iff.mp hf)
      obtain ⟨coef, parts⟩ := coefficient_product many each'
      exact ⟨.product many each', coef, by rwa [parts]⟩
  · obtain ⟨fs, run, perm⟩ := sorted_const c w (fun a ha => (each a ha).isConst) texts
    have filled : fs ≠ [] := fun none => some (List.perm_nil.mp (none ▸ perm.symm))
    refine ⟨product (const c w :: fs), ?_,
      .scaled nonzero one bounded filled fun f hf => each f (perm.mem_iff.mp hf), rfl, perm⟩
    obtain ⟨f, fs, rfl⟩ := List.exists_cons_of_ne_nil filled
    simp only [if_neg one, ordered, List.singleton_append, run, ok_bind]
    rfl

/-- The product of monomials has the product of their coefficients and all their leaves. -/
theorem productWithin_monomials (iw : Int) (fuel : Nat) (wide : 2 ≤ w) (some : es ≠ [])
    (terms : ∀ e ∈ es, Monomial w e) (bounded : (es.map coefficient).prod.natAbs < nestBound w) :
    ∃ r, productWithin iw (fuel + 1) es = .ok r ∧ Monomial w r ∧
      coefficient r = (es.map coefficient).prod ∧ (leaves r).Perm (es.flatMap leaves) := by
  have pos : 0 < w := by omega
  have typed : AllBits es w := fun e he => (terms e he).hasBits pos
  have small {v : Int} (bounded : v.natAbs < nestBound w) := (searchable_of_bounded bounded).1
  have factor := constantFactor_monomials pos terms 1
  rw [Word.bmod_of_inRange pos (small_one wide).inRange, one_mul,
    Word.bmod_of_inRange pos (small bounded).inRange] at factor
  have width := commonWidth_eq iw (allBits_flatten typed) (@flatten_ne_nil .product es w typed some)
  have nonzero : (es.map coefficient).prod ≠ 0 := by
    refine List.prod_ne_zero fun zero => ?_
    obtain ⟨e, he, none⟩ := List.mem_map.mp zero
    exact ((terms e he).coefficient_bounded wide).2 none
  have each : ∀ a ∈ es.flatMap leaves, Leaf w a := by
    intro a ha
    obtain ⟨e, he, ha⟩ := List.mem_flatMap.mp ha
    exact (terms e he).leaf_of_mem a ha
  rw [flatten_product] at width
  simp only [productWithin, productStep, List.isEmpty_eq_false_iff.mpr some, typed.no_uncomputable,
    flatten_product, width, factor, filter_factors terms, if_neg nonzero, ok_bind,
    Bool.false_eq_true, if_false]
  generalize (es.map coefficient).prod = c at bounded nonzero
  generalize es.flatMap leaves = as at each
  by_cases none : as = []
  · subst none
    exact ⟨const c w, ofInt_small pos (small bounded), .const nonzero bounded, rfl, by simp⟩
  have head : constantHead w c = .ok (if c = 1 then [] else [const c w]) := by
    by_cases one : c = 1 <;> simp [constantHead, one, ofInt_small pos (small bounded)]
  obtain ⟨r, run, term, coef, perm⟩ := ordered_monomial nonzero bounded none each
  have sorted : ∀ add mul : Build, joinFactors add mul (if c = 1 then [] else [const c w]) as =
      ordered .product ((if c = 1 then [] else [const c w]) ++ as) := by
    intro add mul
    refine joinFactors_ordered ?_ ?_
    · refine scalable_none fun f hf => ?_
      rcases List.mem_append.mp hf with hf | hf
      · split at hf
        · simp at hf
        · rw [List.mem_singleton.mp hf]
          rfl
      · exact (each f hf).isRecurrence
    · rintro k fs - rfl
      exact (each (sum fs) (by simp)).ne_nary (.inl rfl) fs rfl
  refine ⟨r, ?_, term, coef, perm⟩
  simp only [List.isEmpty_eq_false_iff.mpr none, Bool.false_eq_true, if_false, head, ok_bind, sorted,
    run]

theorem productOf_monomials (iw : Int) (wide : 2 ≤ w) (some : es ≠ [])
    (terms : ∀ e ∈ es, Monomial w e) (bounded : (es.map coefficient).prod.natAbs < nestBound w) :
    ∃ r, productOf iw es = .ok r ∧ Monomial w r ∧ coefficient r = (es.map coefficient).prod ∧
      (leaves r).Perm (es.flatMap leaves) :=
  productWithin_monomials iw _ wide some terms bounded

theorem prod_coefficient_leaves (each : ∀ e ∈ es, Leaf w e) : (es.map coefficient).prod = 1 := by
  refine List.prod_eq_one fun c hc => ?_
  obtain ⟨e, he, rfl⟩ := List.mem_map.mp hc
  exact (each e he).coefficient

theorem flatMap_leaves (each : ∀ e ∈ es, Leaf w e) : es.flatMap leaves = es := by
  rw [List.flatMap_congr fun e he => (each e he).leaves]
  simp

end product

section division

variable {iw : Int} {den : Expr}

/-- Only itself and one divide a leaf. -/
theorem divideByAtom_leaf_rest (leaf : Leaf w e) (other : e ≠ den) (notOne : den.isOne = false) :
    divideByAtom iw den e = .ok (const 0 w, e) :=
  divideByAtom_leaf leaf.typed leaf.whole (immediateDivision_none other leaf.isZero notOne)

theorem divideFactor_leaves (each : ∀ e ∈ es, Leaf w e) (other : ∀ e ∈ es, e ≠ den)
    (notOne : den.isOne = false) : divideFactor? iw den es = .ok none := by
  induction es with
  | nil => rfl
  | cons e es ih =>
    have leaf := each e (by simp)
    have first : divideByAtom iw den e = .ok (const 0 w, e) :=
      divideByAtom_leaf_rest leaf (other e (by simp)) notOne
    have rest := ih (fun f hf => each f (by simp [hf])) fun f hf => other f (by simp [hf])
    simp [divideFactor?, first, leaf.isZero, rest]

theorem ne_const_of_leaves (each : ∀ e ∈ es, Leaf w e) {k : Int} : ∀ e ∈ es, e ≠ const k w := by
  rintro e he rfl
  have other := (each _ he).isConst
  simp [isConst] at other

theorem eq_neg_one_of_dvd_one {k : Int} (divides : k ∣ 1) (other : k ≠ 1) : k = -1 :=
  (Int.isUnit_iff.mp (isUnit_of_dvd_one divides)).resolve_left other

/-- One is taken out of everything, without a look into the parts. -/
theorem quotRem_one (iw : Int) (typed : HasBits e w) (other : e.isConst = false) :
    quotRem iw e (const 1 w) = .ok (e, const 0 w) := by
  have different : e ≠ const 1 w := by
    rintro rfl
    simp [isConst] at other
  have some : e.isZero = false := by
    cases e <;> simp_all [isZero, isConst]
  exact divideByAtom_now typed (immediateDivision_one typed.pos different some rfl)

/-- What dividing the monomial `e` by the constant `k` gives: all of the constant is taken out, or
something of the monomial remains. A sign is only taken out of a coefficient that is written. -/
inductive TakesOut (w k : Int) (e q r : Expr) : Prop
  | whole (divides : k ∣ coefficient e) (term : Monomial w q)
    (coef : coefficient q = coefficient e / k) (same : (leaves q).Perm (leaves e))
    (none : r = const 0 w)
  | rest (other : k ∣ coefficient e → k = -1) (term : Monomial w r) (same : leaves r = leaves e)
    (less : (coefficient e).natAbs < k.natAbs → q = const 0 w)

theorem monomial_const_div {v k : Int} (some : v ≠ 0) (bounded : v.natAbs < nestBound w)
    (divides : k ∣ v) : Monomial w (const (v / k) w) := by
  have quotient : v / k ≠ 0 := fun none => some (by rw [← Int.ediv_mul_cancel divides, none, zero_mul])
  have less : (v / k).natAbs ≤ v.natAbs := by
    rw [← Int.tdiv_eq_ediv_of_dvd divides]
    exact Int.natAbs_tdiv_le_natAbs v k
  exact .const quotient (less.trans_lt bounded)

theorem quotRem_const_takesOut (iw : Int) (wide : 2 ≤ w) {v k : Int} (some : v ≠ 0)
    (bounded : v.natAbs < nestBound w) (nonzero : k ≠ 0) :
    ∃ q r, quotRem iw (const v w) (const k w) = .ok (q, r) ∧ TakesOut w k (const v w) q r := by
  refine ⟨_, _, quotRem_const iw (show 0 < w by omega) (searchable_of_bounded bounded).1 nonzero,
    ?_⟩
  by_cases divides : k ∣ v
  · rw [Int.tdiv_eq_ediv_of_dvd divides, Int.tmod_eq_zero_of_dvd divides]
    exact .whole divides (monomial_const_div some bounded divides) rfl (.refl _) rfl
  · have left : v.tmod k ≠ 0 := fun none => divides (Int.dvd_of_tmod_eq_zero none)
    have less : (v.tmod k).natAbs ≤ v.natAbs := by
      rw [Int.natAbs_tmod]
      exact Nat.mod_le _ _
    refine .rest (fun h => absurd h divides) (.const left (less.trans_lt bounded)) rfl fun low => ?_
    have none : (v.tdiv k).natAbs = 0 := (Int.natAbs_tdiv v k).trans (Nat.div_eq_of_lt low)
    rw [Int.natAbs_eq_zero.mp none]

/-- A product of leaves with a constant in front is divided by dividing this constant. -/
theorem quotRem_scaled_takesOut (iw : Int) (wide : 2 ≤ w) {v k : Int} (some : v ≠ 0) (other : v ≠ 1)
    (bounded : v.natAbs < nestBound w) (several : es ≠ []) (each : ∀ e ∈ es, Leaf w e)
    (nonzero : k ≠ 0) (one : k ≠ 1) :
    ∃ q r, quotRem iw (product (const v w :: es)) (const k w) = .ok (q, r) ∧
      TakesOut w k (product (const v w :: es)) q r := by
  have pos : 0 < w := by omega
  have term : Monomial w (product (const v w :: es)) := .scaled some other bounded several each
  have typed := term.hasBits pos
  have first := quotRem_const iw pos (searchable_of_bounded bounded).1 nonzero
  change divideByAtom iw (const k w) (const v w) = _ at first
  have later (fs : List Expr) : immediateDivision? w (product fs) (const k w) = .ok none :=
    immediateDivision_none (by simp) rfl (by simpa [isOne] using one)
  by_cases divides : k ∣ v
  · rw [Int.tdiv_eq_ediv_of_dvd divides, Int.tmod_eq_zero_of_dvd divides] at first
    have head := monomial_const_div some bounded divides
    have terms : ∀ f ∈ const (v / k) w :: es, Monomial w f := by
      simpa using ⟨head, fun f hf => .leaf (each f hf)⟩
    have total : ((const (v / k) w :: es).map coefficient).prod = v / k := by
      rw [List.map_cons, List.prod_cons, prod_coefficient_leaves each, mul_one]
      rfl
    have bounded' := (head.coefficient_bounded wide).1
    obtain ⟨q, run, term, coef, perm⟩ :=
      productOf_monomials iw wide (by simp) terms (by rw [total]; exact bounded')
    have found : divideFactor? iw (const k w) (const v w :: es) =
        .ok (Option.some (const (v / k) w :: es)) :=
      divideFactor_first (List.forall_mem_nil _) first rfl es
    refine ⟨q, const 0 w, divideByAtom_product typed (later _) found run,
      .whole divides term (coef.trans total) ?_ rfl⟩
    simpa [flatMap_leaves each] using perm
  · have left : v.tmod k ≠ 0 := fun none => divides (Int.dvd_of_tmod_eq_zero none)
    have rest : divideFactor? iw (const k w) es = .ok none :=
      divideFactor_leaves each (ne_const_of_leaves each) (by simpa [isOne] using one)
    have none : divideFactor? iw (const k w) (const v w :: es) = .ok none := by
      simp [divideFactor?, first, isZero, left, rest]
    exact ⟨_, _, divideByAtom_product_rest typed (later _) none (by simp),
      .rest (fun h => absurd h divides) term rfl fun _ => rfl⟩

/-- A constant is taken out of a monomial, or something of it remains. -/
theorem quotRem_monomial (iw : Int) {k : Int} (wide : 2 ≤ w) (term : Monomial w e) (nonzero : k ≠ 0) :
    ∃ q r, quotRem iw e (const k w) = .ok (q, r) ∧ TakesOut w k e q r := by
  have typed := term.hasBits (show 0 < w by omega)
  by_cases constant : e.isConst = true
  · cases term with
    | const some bounded => exact quotRem_const_takesOut iw wide some bounded nonzero
    | leaf leaf => simp [leaf.isConst] at constant
    | _ => simp [isConst] at constant
  have other : e.isConst = false := by simpa using constant
  by_cases one : k = 1
  · subst one
    exact ⟨e, const 0 w, quotRem_one iw typed other,
      .whole (one_dvd _) term (Int.ediv_one _).symm (.refl _) rfl⟩
  have notOne : (const k w).isOne = false := by simpa [isOne] using one
  -- A coefficient of one is not written, and no sign is taken out of it.
  have sign (divides : k ∣ 1) : k = -1 := eq_neg_one_of_dvd_one divides one
  cases term with
  | const some bounded => simp [isConst] at other
  | leaf leaf =>
    have different : e ≠ const k w := by
      rintro rfl
      simp [isConst] at other
    refine ⟨_, _, divideByAtom_leaf_rest leaf different notOne,
      .rest (fun divides => sign ?_) (.leaf leaf) rfl fun _ => rfl⟩
    rwa [leaf.coefficient] at divides
  | product several each =>
    have none : divideFactor? iw (const k w) _ = .ok none :=
      divideFactor_leaves each (ne_const_of_leaves each) notOne
    refine ⟨_, _, divideByAtom_product_rest typed (immediateDivision_none (by simp) rfl notOne) none
      (by simp),
      .rest (fun divides => sign ?_) (.product several each) rfl fun _ => rfl⟩
    rwa [(coefficient_product several each).1] at divides
  | scaled some written bounded several each =>
    exact quotRem_scaled_takesOut iw wide some written bounded several each nonzero one

/-- Nothing is taken out of a smaller coefficient. -/
theorem TakesOut.none {k : Int} {q r : Expr} (out : TakesOut w k e q r) (nonzero : coefficient e ≠ 0)
    (less : (coefficient e).natAbs < k.natAbs) : q = const 0 w := by
  cases out with
  | whole divides _ _ _ _ =>
    have le := Int.natAbs_dvd_natAbs.mpr divides
    have := Nat.le_of_dvd (Int.natAbs_pos.mpr nonzero) le
    omega
  | rest _ _ _ low => exact low less

end division

end ShapeRecovery.Expr
