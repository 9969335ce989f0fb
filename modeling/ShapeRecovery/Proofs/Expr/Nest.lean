import ShapeRecovery.Proofs.Expr.SmallConstant

namespace ShapeRecovery.Expr

/-- What the constants of a nest of `w` bits stay below: they are small for their width, and all
their factors are found. -/
def nestBound (w : Int) : Nat :=
  min (2 ^ 32) (Word.modulus (w - 1))

/-- A constant, or a recurrence that moves from one constant nest by another. -/
inductive ConstantNest (w : Int) : Expr → Prop
  | const {v : Int} (bounded : v.natAbs < nestBound w) : ConstantNest w (.const v w)
  | recurrence {a b : Expr} {l : Loop} (moves : b.isZero = false) (start : ConstantNest w a)
      (step : ConstantNest w b) : ConstantNest w (.recurrence a b l)

/-- The constants of a nest. -/
def constants : Expr → List Int
  | const v _ => [v]
  | recurrence start step _ => constants start ++ constants step
  | _ => []

/-- A nest with all its constants divided by `g`. -/
def shrink (g : Int) : Expr → Expr
  | const v w => const (v / g) w
  | recurrence start step l => recurrence (shrink g start) (shrink g step) l
  | e => e

variable {w : Int} {e : Expr} {n : Nat}

theorem searchable_of_bounded {v : Int} (bounded : v.natAbs < nestBound w) : Searchable w v := by
  unfold nestBound at bounded
  have limit : 2 ^ 32 < (Number.trialLimit + 1) * (Number.trialLimit + 1) := by decide
  have small : v.natAbs < Word.modulus (w - 1) := by omega
  exact ⟨small, by omega⟩

namespace ConstantNest

theorem bounded (nest : ConstantNest w e) : ∀ v ∈ constants e, v.natAbs < nestBound w := by
  induction nest with
  | const bounded => simpa [constants] using bounded
  | recurrence moves _ _ first second =>
    intro v hv
    exact (List.mem_append.mp hv).elim (first v) (second v)

theorem hasBits (nest : ConstantNest w e) (pos : 0 < w) : HasBits e w := by
  induction nest with
  | const bounded => exact (searchable_of_bounded bounded).1.hasBits pos
  | recurrence moves _ _ first second => exact .recurrence first second

theorem constants_ne_nil (nest : ConstantNest w e) : constants e ≠ [] := by
  induction nest with
  | const bounded => simp [constants]
  | recurrence moves _ _ first second => simp [constants, first]

private theorem isZero_shrink (nest : ConstantNest w e) {g : Int}
    (divides : ∀ v ∈ constants e, g ∣ v) : (shrink g e).isZero = e.isZero := by
  cases nest with
  | @const v bounded =>
    have whole := Int.ediv_mul_cancel (divides v (by simp [constants]))
    rw [Bool.eq_iff_iff]
    simp only [shrink, isZero, beq_iff_eq]
    constructor
    · intro none
      rw [← whole, none, zero_mul]
    · rintro rfl
      exact Int.zero_ediv g
  | recurrence moves start step => rfl

theorem shrink_ne_uncomputable (nest : ConstantNest w e) (g : Int) : shrink g e ≠ uncomputable := by
  cases nest <;> simp [shrink]

end ConstantNest

theorem shrink_one (e : Expr) : shrink 1 e = e := by
  induction e using constants.induct with
  | case1 v b => simp [shrink]
  | case2 start step l first second => simp [shrink, first, second]
  | case3 e other other' =>
    unfold shrink
    split
    · exact absurd rfl (other _ _)
    · exact absurd rfl (other' _ _ _)
    · rfl

/-- A common divisor of its constants divides a nest, part by part. -/
theorem quotRem_nest (iw : Int) {g : Int} (pos : 0 < w) (nest : ConstantNest w e) (small : Small w g)
    (nonzero : g ≠ 0) (divides : ∀ v ∈ constants e, g ∣ v) :
    quotRem iw e (const g w) = .ok (shrink g e, const 0 w) := by
  induction nest with
  | @const v bounded =>
    have whole := divides v (by simp [constants])
    rw [quotRem_const iw pos (searchable_of_bounded bounded).1 nonzero,
      Int.tdiv_eq_ediv_of_dvd whole, Int.tmod_eq_zero_of_dvd whole, shrink]
  | @recurrence a b l moves start step first second =>
    have first := first fun v hv => divides v (List.mem_append_left _ hv)
    have second := second fun v hv => divides v (List.mem_append_right _ hv)
    have moves' := (step.isZero_shrink fun v hv => divides v (List.mem_append_right _ hv)).trans moves
    have typed : HasBits (recurrence a b l) w := .recurrence (start.hasBits pos) (step.hasBits pos)
    by_cases whole : g = 1
    · subst whole
      rw [shrink_one]
      exact divideByAtom_now typed (immediateDivision_one pos (by simp) rfl rfl)
    · have built : recur (shrink g a) (shrink g b) l = recurrence (shrink g a) (shrink g b) l := by
        rw [recur_of_computable l (start.shrink_ne_uncomputable g) (step.shrink_ne_uncomputable g), moves']
        rfl
      rw [shrink, ← built]
      exact divideByAtom_recurrence typed
        (immediateDivision_none (by simp) rfl (by simpa [isOne] using whole)) first second

/-- `divisor` finds the greatest common divisor of two nests that weigh less than `n` together. -/
def ExactBelow (divisor : List Expr → Traced Expr) (w : Int) (n : Nat) : Prop :=
  ∀ a b, ConstantNest w a → ConstantNest w b → weight a + weight b < n →
    (divisor [a, b]).outcome = .ok (const (gcdAll (constants a ++ constants b)) w)

private theorem searchTerms_nest {divisor : List Expr → Traced Expr} (iw : Int)
    (exact : ExactBelow divisor w n) (nest : ConstantNest w e) (light : weight e ≤ n) :
    ∃ c, (searchTerms divisor iw e).outcome = .ok [const c w] ∧ c.natAbs = gcdAll (constants e) := by
  cases nest with
  | @const v bounded => exact ⟨v, rfl, by simp [constants, gcdAll]⟩
  | @recurrence a b l moves start step =>
    have whole {e : Expr} (nest : ConstantNest w e) : searchableProduct iw e = .ok e := by
      cases nest <;> rfl
    simp only [weight] at light
    have found := exact a b start step (by omega)
    refine ⟨_, ?_, Int.natAbs_natCast _⟩
    simp only [searchTerms, Traced.outcome_bind, Traced.outcome_lift, Traced.outcome_pure,
      whole start, whole step, found, ok_bind, constants]

private theorem searchTermsOfList_nests {divisor : List Expr → Traced Expr} (iw : Int)
    (exact : ExactBelow divisor w n) {es : List Expr} (nests : ∀ e ∈ es, ConstantNest w e)
    (light : ∀ e ∈ es, weight e ≤ n) :
    ∃ cs, (searchTermsOfList divisor iw es).outcome = .ok (consts w cs) ∧
      cs.length = es.length ∧ gcdAll cs = gcdAll (es.flatMap constants) ∧
      ∀ c ∈ cs, c.natAbs < nestBound w := by
  induction es with
  | nil => exact ⟨[], rfl, rfl, rfl, by simp⟩
  | cons e es ih =>
    have nest := nests e (by simp)
    obtain ⟨c, hc, here⟩ := searchTerms_nest iw exact nest (light e (by simp))
    obtain ⟨cs, hcs, length, others, bounded⟩ :=
      ih (fun f hf => nests f (by simp [hf])) fun f hf => light f (by simp [hf])
    refine ⟨c :: cs, ?_, by simp [length], ?_, ?_⟩
    · simp only [searchTermsOfList, Traced.outcome_bind, Traced.outcome_pure, hc, hcs, ok_bind]
      rfl
    · rw [List.flatMap_cons, gcdAll_append, gcdAll, here, others]
    · have first : c.natAbs < nestBound w := by
        rw [here]
        exact gcdAll_lt nest.constants_ne_nil nest.bounded
      simpa using ⟨first, bounded⟩

private theorem divisorStep_nests {divisor : List Expr → Traced Expr} (settings : Settings) (pos : 0 < w)
    (exact : ExactBelow divisor w n) {es : List Expr} (some : es ≠ [])
    (nests : ∀ e ∈ es, ConstantNest w e) (light : ∀ e ∈ es, weight e ≤ n) :
    (divisorStep divisor settings es).outcome =
      .ok (const (gcdAll (es.flatMap constants)) w) := by
  obtain ⟨cs, hcs, length, total, bounded⟩ :=
    searchTermsOfList_nests settings.indexWidth exact nests light
  have search : ∀ c ∈ cs, Searchable w c := fun c hc => searchable_of_bounded (bounded c hc)
  have typed : AllBits (consts w cs) w := AllBits.consts pos fun c hc => (search c hc).1
  cases es with
  | nil => exact absurd rfl some
  | cons e es =>
    have some' : cs ≠ [] := List.ne_nil_of_length_pos (by simp [length])
    have width : (if (Option.some w).getD 0 = 0 then settings.indexWidth
        else (Option.some w).getD settings.indexWidth) = w := if_neg pos.ne'
    simp only [divisorStep, Traced.outcome_bind, Traced.outcome_lift,
      ((nests e (by simp)).hasBits pos).width, ok_bind, width, hcs, sayRow_ok settings _ typed.texts]
    rw [divisorOfTerms_consts settings pos some' search, total]

theorem divisorWithin_nests (settings : Settings) (pos : 0 < w) (fuel : Nat) {es : List Expr}
    (some : es ≠ []) (nests : ∀ e ∈ es, ConstantNest w e) (enough : weightSum es < fuel) :
    (divisorWithin settings fuel es).outcome =
      .ok (const (gcdAll (es.flatMap constants)) w) := by
  induction fuel generalizing es with
  | zero => omega
  | succ fuel ih =>
    have exact : ExactBelow (divisorWithin settings fuel) w fuel := by
      intro a b start step light
      have found := @ih [a, b] (by simp) (by simp [start, step]) (by simpa [weightSum] using light)
      simpa using found
    refine divisorStep_nests settings pos exact some nests fun e he => ?_
    have low := weight_add_length_le he
    have length := List.length_pos_of_ne_nil some
    omega

/-- The common divisor of nests is the greatest one of their constants. -/
theorem commonDivisor_nests (settings : Settings) (pos : 0 < w) {es : List Expr} (some : es ≠ [])
    (nests : ∀ e ∈ es, ConstantNest w e) :
    (commonDivisor settings es).outcome = .ok (const (gcdAll (es.flatMap constants)) w) := by
  refine divisorWithin_nests settings pos _ some nests ?_
  unfold divisorFuel
  omega

end ShapeRecovery.Expr
