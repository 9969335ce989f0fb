import ShapeRecovery.Proofs.Expr.Algebra

namespace ShapeRecovery

/-- `y` has the result of `x`, if `x` has one. -/
def Extends {α : Type} (x y : Except Fault α) : Prop := ∀ a, x = .ok a → y = .ok a

namespace Extends

variable {α β : Type} {x y : Except Fault α} {f g : α → Except Fault β}

theorem refl (x : Except Fault α) : Extends x x := fun _ run => run

theorem bind (first : Extends x y) (next : ∀ a, Extends (f a) (g a)) :
    Extends (x >>= f) (y >>= g) := by
  intro b run
  obtain ⟨a, ha, run⟩ := bind_eq_ok.mp run
  exact bind_eq_ok.mpr ⟨a, first a ha, next a b run⟩

/-- What comes before a step is the same on both sides. -/
theorem after (x : Except Fault α) (next : ∀ a, Extends (f a) (g a)) :
    Extends (x >>= f) (x >>= g) := (refl x).bind next

end Extends

namespace Expr

/-- `build'` has all the results of `build`. -/
def Build.Extends (build build' : Build) : Prop :=
  ∀ es, ShapeRecovery.Extends (build es) (build' es)

variable {add add' mul mul' : Build} {w c iw : Int} {l : Loop}

section step

open ShapeRecovery (Extends)

private theorem scaleTerm_extends (hmul : mul.Extends mul') (b : Expr) (c : Int) :
    Extends (scaleTerm mul w b c) (scaleTerm mul' w b c) := by
  refine .after _ fun c => ?_
  by_cases one : c = 1
  · simpa only [one, if_true] using .refl _
  by_cases nought : c = 0
  · simpa only [one, nought, if_false, if_true] using .refl _
  simp only [one, nought, if_false]
  exact .after _ fun k => (hmul _).bind fun e => .refl _

private theorem scaleTerms_extends (hmul : mul.Extends mul') (ms : List (Expr × Int)) :
    Extends (scaleTerms mul w ms) (scaleTerms mul' w ms) := by
  induction ms with
  | nil => exact .refl _
  | cons m ms ih => exact (scaleTerm_extends hmul m.1 m.2).bind fun here => ih.bind fun others => .refl _

private theorem mergeParts_extends (hadd : add.Extends add') (parts : List (Expr × Expr)) :
    Extends (mergeParts add l parts) (mergeParts add' l parts) := by
  match parts with
  | [p] => exact .refl _
  | [] | p :: q :: parts => exact (hadd _).bind fun start => (hadd _).bind fun step => .refl _

private theorem mergeAll_extends (hadd : add.Extends add') (gs : List (Loop × List (Expr × Expr))) :
    Extends (mergeAll add gs) (mergeAll add' gs) := by
  induction gs with
  | nil => exact .refl _
  | cons g gs ih => exact (mergeParts_extends hadd g.2).bind fun e => ih.bind fun others => .refl _

private theorem addInvariant_extends (hadd : add.Extends add') (moved : List Expr) (e : Expr) :
    Extends (addInvariant add l moved e) (addInvariant add' l moved e) := by
  cases e with
  | recurrence a b m => exact (hadd _).bind fun start => .refl _
  | _ =>
    simp only [addInvariant]
    split
    · exact .refl _
    · exact hadd _

private theorem joinLike_extends (hadd : add.Extends add') (rest : List Expr) (merged : List (Loop × Expr)) :
    Extends (joinLike add w rest merged) (joinLike add' w rest merged) := by
  cases merged with
  | nil => exact .refl _
  | cons first more => exact (addInvariant_extends hadd _ _).bind fun e => .refl _

private theorem collectLike_extends (hadd : add.Extends add') (hmul : mul.Extends mul') (t : Terms) :
    Extends (collectLike add mul w t) (collectLike add' mul' w t) :=
  .after _ fun _ => .after _ fun _ => (scaleTerms_extends hmul _).bind fun _ =>
    (mergeAll_extends hadd _).bind fun _ => .refl _

private theorem sumStep_extends (hadd : add.Extends add') (hmul : mul.Extends mul') :
    Build.Extends (sumStep add mul iw) (sumStep add' mul' iw) := by
  intro es
  by_cases none : es.isEmpty = true
  · simpa only [sumStep, none, if_true] using .refl _
  by_cases computable : es.contains uncomputable = true
  · simpa only [sumStep, none, computable, Bool.false_eq_true, if_false, if_true] using .refl _
  simp only [sumStep, none, computable, Bool.false_eq_true, if_false]
  exact .after _ fun _ => .after _ fun t => (collectLike_extends hadd hmul t).bind fun like =>
    joinLike_extends hadd like.1 like.2

private theorem distribute_extends (hmul : mul.Extends mul') (k : Expr) (es : List Expr) :
    Extends (distribute mul k es) (distribute mul' k es) := by
  induction es with
  | nil => exact .refl _
  | cons e es ih => exact (hmul _).bind fun p => ih.bind fun rest => .refl _

private theorem joinFactors_extends (hadd : add.Extends add') (hmul : mul.Extends mul')
    (head others : List Expr) :
    Extends (joinFactors add mul head others) (joinFactors add' mul' head others) := by
  simp only [joinFactors]
  split
  · exact (hmul _).bind fun start => (hmul _).bind fun step => .refl _
  · split
    · exact (distribute_extends hmul _ _).bind fun terms => hadd terms
    · exact .refl _

private theorem productStep_extends (hadd : add.Extends add') (hmul : mul.Extends mul') :
    Build.Extends (productStep add mul iw) (productStep add' mul' iw) := by
  intro es
  by_cases none : es.isEmpty = true
  · simpa only [productStep, none, if_true] using .refl _
  by_cases computable : es.contains uncomputable = true
  · simpa only [productStep, none, computable, Bool.false_eq_true, if_false, if_true] using .refl _
  simp only [productStep, none, computable, Bool.false_eq_true, if_false]
  refine .after _ fun w => .after _ fun c => ?_
  split
  · exact .refl _
  split
  · exact .refl _
  exact .after _ fun head => joinFactors_extends hadd hmul head _

end step

theorem within_extends (iw : Int) {m n : Nat} (le : m ≤ n) :
    (sumWithin iw m).Extends (sumWithin iw n) ∧ (productWithin iw m).Extends (productWithin iw n) := by
  induction m generalizing n with
  | zero => exact ⟨fun _ _ run => (nomatch run), fun _ _ run => (nomatch run)⟩
  | succ m ih =>
    obtain ⟨n, rfl⟩ : ∃ k, n = k + 1 := ⟨n - 1, by omega⟩
    obtain ⟨sums, products⟩ := ih (Nat.le_of_succ_le_succ le)
    exact ⟨sumStep_extends sums products, productStep_extends sums products⟩

variable {es : List Expr} {n : Nat} {r : Expr}

/-- Any result of a sum of operands of one width is the sum. -/
theorem sumOf_of_within (some : es ≠ []) (typed : AllBits es w) (run : sumWithin iw n es = .ok r) :
    sumOf iw es = .ok r := by
  obtain ⟨r', run', -⟩ := sumOf_spec iw some typed
  have deep := (within_extends iw (le_max_left n (fuelFor .sum es))).1 es r run
  have deep' := (within_extends iw (le_max_right n (fuelFor .sum es))).1 es r' run'
  cases deep.symm.trans deep'
  exact run'

theorem productOf_of_within (some : es ≠ []) (typed : AllBits es w)
    (run : productWithin iw n es = .ok r) : productOf iw es = .ok r := by
  obtain ⟨r', run', -⟩ := productOf_spec iw some typed
  have deep := (within_extends iw (le_max_left n (fuelFor .product es))).2 es r run
  have deep' := (within_extends iw (le_max_right n (fuelFor .product es))).2 es r' run'
  cases deep.symm.trans deep'
  exact run'

/-- Any result of a sum stands for the operands, but for the gap of the sum. -/
theorem same_of_sumWithin (some : es ≠ []) (typed : AllBits es w)
    (run : sumWithin iw n es = .ok r) : Same .sum w (sumGap iw es) es [r] := by
  obtain ⟨r', run', same⟩ := sumOf_spec iw some typed
  cases (sumOf_of_within some typed run).symm.trans run'
  exact same

theorem same_of_productWithin (some : es ≠ []) (typed : AllBits es w)
    (run : productWithin iw n es = .ok r) : Same .product w (productGap iw es) es [r] := by
  obtain ⟨r', run', same⟩ := productOf_spec iw some typed
  cases (productOf_of_within some typed run).symm.trans run'
  exact same

end Expr

end ShapeRecovery
