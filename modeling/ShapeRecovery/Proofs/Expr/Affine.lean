import ShapeRecovery.Proofs.Expr.Linear

namespace ShapeRecovery.Expr

/-- The search for divisors takes the expression as it is, by itself and as a factor. -/
def isTaken : Expr → Bool
  | const .. | unknown .. | nary .sum _ => true
  | cast _ (unknown ..) _ | cast _ (nary .sum _) _ | cast _ (nary .product _) _ => true
  | _ => false

/-- The search for divisors looks for the start and the step of a recurrence in the expression. -/
def isOpened : Expr → Bool
  | recurrence .. | cast _ (recurrence ..) _ => true
  | _ => false

/-- The search finds factors of the expression, and takes no recurrence in them apart. -/
structure Searched (e : Expr) : Prop where
  taken : ∃ f ∈ factorsOf e, f.isTaken = true
  closed : ∀ f ∈ factorsOf e, f.isOpened = false

/-- A nest of recurrences, of any loops, that start from searched linear combinations and move by
such combinations. -/
inductive Affine (w : Int) : Expr → Prop
  | linear {e : Expr} (linear : Linear w e) (searched : Searched e) : Affine w e
  | recurrence {a b : Expr} {l : Loop} (start : Affine w a) (step : Affine w b) :
    Affine w (.recurrence a b l)

/-- The greatest common divisor of the contents. -/
def commonContent (es : List Expr) : Nat :=
  gcdAll (es.map fun e => (content e : Int))

variable {w iw : Int} {e t : Expr} {es ts as : List Expr} {ks : List Int}

theorem commonContent_cons (e : Expr) (es : List Expr) :
    commonContent (e :: es) = Nat.gcd (content e) (commonContent es) := rfl

theorem dvd_commonContent {g : Nat} : g ∣ commonContent es ↔ ∀ e ∈ es, g ∣ content e := by
  simp [commonContent, dvd_gcdAll, Int.natCast_dvd_natCast]

theorem Affine.hasBits (affine : Affine w e) (pos : 0 < w) : HasBits e w := by
  induction affine with
  | linear linear _ => exact linear.hasBits pos
  | recurrence _ _ first second => exact .recurrence first second

section matching

/-- The candidates from the coefficient of a monomial are matched with what they have in common with
the content. -/
private theorem matching_linear (iw : Int) (wide : 2 ≤ w) (seeds : ∀ k ∈ ks, Seed k ∧ Small w k)
    (typed : AllBits as w) (linear : Linear w t) :
    ∃ kc ka, matching iw (consts w ks ++ as) t = .ok (consts w kc ++ ka) ∧ kc.Sublist ks ∧
      ka.Sublist as ∧ kc.prod.natAbs = Nat.gcd ks.prod.natAbs (content t) := by
  induction ks generalizing t with
  | nil =>
    obtain ⟨kept, run, sub⟩ := matching_sublist iw typed (linear.hasBits (show 0 < w by omega))
    exact ⟨[], kept, run, .slnil, sub, by simp⟩
  | cons k ks ih =>
    have ih {t : Expr} := @ih t fun j hj => seeds j (by simp [hj])
    obtain ⟨seed, small⟩ := seeds k (by simp)
    obtain ⟨q, r, run, out⟩ := quotRem_linear iw wide linear small seed.ne_zero
    have front (js : List Int) : consts w (k :: js) = const k w :: consts w js := rfl
    rw [List.prod_cons, Int.natAbs_mul]
    simp only [front, List.cons_append, matching, run, ok_bind]
    cases out with
    | whole left part _ none =>
      obtain ⟨kc, ka, rest, sub, sub', total⟩ := ih left
      refine ⟨k :: kc, ka, ?_, sub.cons_cons k, sub', ?_⟩
      · rw [none, if_pos (show (const 0 w).isZero = true from rfl), rest, front]
        rfl
      · rw [List.prod_cons, Int.natAbs_mul, total, part, Nat.gcd_mul_left]
    | rest other some =>
      obtain ⟨kc, ka, rest, sub, sub', total⟩ := ih linear
      refine ⟨kc, ka, ?_, sub.cons k, sub', ?_⟩
      · simpa [some] using rest
      · rw [total]
        by_cases divides : k.natAbs ∣ content t
        · simp [other divides]
        · have prime : k.natAbs.Prime := by
            rcases seed with rfl | ⟨-, one | prime⟩
            · simp at divides
            · simp [one] at divides
            · exact prime
          have coprime := (Nat.Prime.coprime_iff_not_dvd prime).mpr divides
          exact (Nat.Coprime.gcd_mul_left_cancel _ coprime).symm

private theorem matchingAll_linear (iw : Int) (wide : 2 ≤ w) (seeds : ∀ k ∈ ks, Seed k ∧ Small w k)
    (typed : AllBits as w) (linear : ∀ t ∈ ts, Linear w t) :
    ∃ kc ka, matchingAll iw ts (consts w ks ++ as) = .ok (consts w kc ++ ka) ∧ kc.Sublist ks ∧
      ka.Sublist as ∧ kc.prod.natAbs = Nat.gcd ks.prod.natAbs (commonContent ts) := by
  induction ts generalizing ks as with
  | nil => exact ⟨ks, as, rfl, .refl _, .refl _, by simp [commonContent, gcdAll]⟩
  | cons t ts ih =>
    have others : ∀ u ∈ ts, Linear w u := fun u hu => linear u (by simp [hu])
    rw [commonContent_cons]
    cases zero : t.isZero with
    | true =>
      obtain ⟨kc, ka, run, sub, sub', total⟩ := ih seeds typed others
      refine ⟨kc, ka, ?_, sub, sub', ?_⟩
      · simp only [matchingAll, zero, if_true, run]
      · rw [((linear t (by simp)).isZero_iff wide).mp zero, Nat.gcd_zero_left, total]
    | false =>
      obtain ⟨kc, ka, run, sub, sub', total⟩ := matching_linear iw wide seeds typed (linear t (by simp))
      obtain ⟨kc', ka', run', sub₂, sub₂', total'⟩ := ih (fun k hk => seeds k (sub.subset hk))
        (fun a ha => typed a (sub'.subset ha)) others
      refine ⟨kc', ka', (matchingAll_cons iw zero run).trans run', sub₂.trans sub, sub₂'.trans sub', ?_⟩
      rw [total', total, Nat.gcd_assoc]

theorem candidates_leaves (settings : Settings) (each : ∀ a ∈ as, Leaf w a) :
    (candidates settings as).outcome = .ok as := by
  induction as with
  | nil => rfl
  | cons a as ih =>
    have rest := ih fun b hb => each b (by simp [hb])
    simp only [candidates, factorCandidates, (each a (by simp)).isConst, Bool.false_eq_true, if_false,
      Traced.outcome_bind, Traced.outcome_pure, rest, ok_bind]
    rfl

/-- The candidates of a monomial are those of its coefficient, and its leaves. -/
private theorem candidates_monomial (settings : Settings) (wide : 2 ≤ w) (term : Monomial w e) :
    ∃ ks, (candidates settings (factorsOf e)).outcome = .ok (consts w ks ++ leaves e) ∧
      (∀ k ∈ ks, Seed k ∧ Small w k) ∧ ks.prod.natAbs = (coefficient e).natAbs := by
  have constant {v : Int} {as : List Expr} (some : v ≠ 0) (bounded : v.natAbs < nestBound w)
      (each : ∀ a ∈ as, Leaf w a) :
      ∃ ks, (candidates settings (const v w :: as)).outcome = .ok (consts w ks ++ as) ∧
        (∀ k ∈ ks, Seed k ∧ Small w k) ∧ ks.prod.natAbs = v.natAbs := by
    obtain ⟨ks, run, seeds, total⟩ := candidates_const settings (show 0 < w by omega)
      (searchable_of_bounded bounded) some
    refine ⟨ks, ?_, seeds, total⟩
    simp only [candidates, Traced.outcome_bind, Traced.outcome_pure, ok_bind] at run ⊢
    obtain ⟨here, first, run⟩ := bind_eq_ok.mp run
    obtain rfl : here = consts w ks := by simpa using run
    rw [first, candidates_leaves settings each]
    rfl
  have none {as : List Expr} (each : ∀ a ∈ as, Leaf w a) :
      ∃ ks, (candidates settings as).outcome = .ok (consts w ks ++ as) ∧
        (∀ k ∈ ks, Seed k ∧ Small w k) ∧ ks.prod.natAbs = (1 : Int).natAbs :=
    ⟨[], candidates_leaves settings each, by simp, rfl⟩
  cases term with
  | const some bounded => exact constant some bounded (by simp)
  | leaf leaf =>
    rw [leaf.factorsOf, leaf.leaves, leaf.coefficient]
    exact none (by simpa using leaf)
  | product several each =>
    rw [(coefficient_product several each).1, (coefficient_product several each).2]
    exact none each
  | scaled some _ bounded _ each => exact constant some bounded each

/-- The matched candidates are joined to a monomial with the common coefficient, which is not
negative. -/
private theorem joinCandidates_monomial (iw : Int) (wide : 2 ≤ w) (seeds : ∀ k ∈ ks, Seed k ∧ Small w k)
    (bounded : ks.prod.natAbs < nestBound w) (each : ∀ a ∈ as, Leaf w a) :
    ∃ g, joinCandidates iw w ((consts w ks ++ as).filter fun d => !isMinusOne d) = .ok g ∧
      Monomial w g ∧ coefficient g = ks.prod.natAbs := by
  have pos : 0 < w := by omega
  have size := prod_seeds fun k hk => (seeds k hk).1
  have nonzero : ∀ k ∈ ks, k ≠ 0 := fun k hk => (seeds k hk).1.ne_zero
  have whole : ks.prod.natAbs ≠ 0 := by
    rw [ne_eq, Int.natAbs_eq_zero]
    exact List.prod_ne_zero fun zero => nonzero 0 zero rfl
  have low : ∀ k ∈ ks, k.natAbs < nestBound w := fun k hk => (Nat.le_of_dvd
    (Nat.pos_of_ne_zero whole) (Int.natAbs_dvd_natAbs.mpr (List.dvd_prod hk))).trans_lt bounded
  have kept : ((consts w ks ++ as).filter fun d => !isMinusOne d) =
      consts w (ks.filter fun k => !(k == -1)) ++ as := by
    have still : ∀ a ∈ as, isMinusOne a = false := by
      intro a ha
      have other := (each a ha).isConst
      cases a <;> simp_all [isMinusOne, isConst]
    have all : (as.filter fun d => !isMinusOne d) = as :=
      List.filter_eq_self.mpr fun a ha => by simp [still a ha]
    rw [List.filter_append, all]
    simp [consts, List.filter_map, Function.comp_def, isMinusOne]
  have terms : ∀ e ∈ consts w (ks.filter fun k => !(k == -1)) ++ as, Monomial w e := by
    intro e he
    rcases List.mem_append.mp he with he | he
    · obtain ⟨k, hk, rfl⟩ := List.mem_map.mp he
      exact .const (nonzero k (List.mem_of_mem_filter hk)) (low k (List.mem_of_mem_filter hk))
    · exact .leaf (each e he)
  have total : ((consts w (ks.filter fun k => !(k == -1)) ++ as).map coefficient).prod =
      ks.prod.natAbs := by
    rw [← size, List.map_append, List.prod_append, prod_coefficient_leaves each, mul_one]
    simp [consts, Function.comp_def]
  rw [kept, ← total]
  have bounded' : ((consts w (ks.filter fun k => !(k == -1)) ++ as).map coefficient).prod.natAbs <
      nestBound w := by rwa [total, Int.natAbs_natCast]
  generalize consts w (ks.filter fun k => !(k == -1)) ++ as = found at terms bounded'
  rcases found with _ | ⟨d, _ | ⟨d', ds⟩⟩
  · exact ⟨const 1 w, one_small pos (small_one wide), .const one_ne_zero
      (lt_min (by decide) (small_one wide)), rfl⟩
  · exact ⟨d, rfl, terms d (by simp), by simp⟩
  · obtain ⟨g, run, term, coef, -⟩ := productOf_monomials iw wide (by simp) terms bounded'
    exact ⟨g, run, term, coef⟩

end matching

section search

variable {divisor : List Expr → Traced Expr} {settings : Settings}

/-- What the search may put in the place of expressions with the common content `c`: a linear
combination with this content, or a monomial with none. -/
structure Condenses (w : Int) (c : Nat) (t : Expr) : Prop where
  linear : Linear w t
  exact : content t = c ∨ Monomial w t ∧ content t = 1

private theorem matchingAll_sum (iw : Int) (wide : 2 ≤ w) {fs : List Expr} (typed : HasBits (sum fs) w)
    (linear : ∀ t ∈ ts, Linear w t) :
    ∃ kept, matchingAll iw ts [sum fs] = .ok kept ∧
      (kept = [] ∨ kept = [sum fs] ∧ ∀ t ∈ ts, t = sum fs ∨ t.isZero = true) := by
  have pos : 0 < w := by omega
  induction ts with
  | nil => exact ⟨[sum fs], rfl, .inr ⟨rfl, by simp⟩⟩
  | cons t ts ih =>
    obtain ⟨kept, rest, kinds⟩ := ih fun u hu => linear u (by simp [hu])
    cases zero : t.isZero with
    | true =>
      refine ⟨kept, by simp only [matchingAll, zero, if_true, rest], kinds.imp_right fun h => ?_⟩
      exact ⟨h.1, by simpa [zero] using h.2⟩
    | false =>
      by_cases same : t = sum fs
      · subst same
        have run : matching iw [sum fs] (sum fs) = .ok [sum fs] := by
          have divided : quotRem iw (sum fs) (sum fs) = .ok (_, const 0 w) :=
            divideByAtom_now typed (immediateDivision_self pos _)
          simp [matching, divided, isZero]
        refine ⟨kept, (matchingAll_cons iw zero run).trans rest, kinds.imp_right fun h => ?_⟩
        exact ⟨h.1, by simpa using h.2⟩
      · obtain ⟨q, r, division, some⟩ := quotRem_linear_sum iw wide (linear t (by simp)) zero same typed
        have run : matching iw [sum fs] t = .ok [] := by
          simp [matching, division, some]
        exact ⟨[], (matchingAll_cons iw zero run).trans (matchingAll_nil iw ts), .inl rfl⟩

/-- What the search may find for linear combinations: a divisor with their common content, which is
a sum only where all of them are this sum, or a monomial with the coefficient one. -/
structure Found (w : Int) (ts : List Expr) (g : Expr) : Prop where
  linear : Linear w g
  sign : 0 ≤ coefficient g
  common : content g = commonContent ts ∧ (Monomial w g ∨ ∀ t ∈ ts, t = g ∨ t.isZero = true) ∨
    Monomial w g ∧ content g = 1

private theorem found_one (wide : 2 ≤ w) (ts : List Expr) : Found w ts (const 1 w) :=
  have unit : Monomial w (const 1 w) := .const one_ne_zero (lt_min (by decide) (small_one wide))
  ⟨.monomial unit, zero_le_one, .inr ⟨unit, rfl⟩⟩

/-- From a monomial the common content of all terms is found. -/
private theorem divisorOfTerms_monomial (settings : Settings) (wide : 2 ≤ w) (term : Monomial w t)
    (linear : ∀ u ∈ ts, Linear w u) :
    ∃ g, (divisorOfTerms settings w (t :: ts)).outcome = .ok g ∧ Found w (t :: ts) g := by
  obtain ⟨ks, seeded, seeds, total⟩ := candidates_monomial settings wide term
  obtain ⟨kc, ka, matched, sub, sub', common⟩ := matchingAll_linear settings.indexWidth wide seeds
    (fun a ha => (term.leaf_of_mem a ha).typed) linear
  obtain ⟨bounded, some⟩ := term.coefficient_bounded wide
  have bounded' : kc.prod.natAbs < nestBound w := by
    rw [common, total]
    exact (Nat.gcd_le_left _ (Int.natAbs_pos.mpr some)).trans_lt bounded
  obtain ⟨g, join, made, coef⟩ := joinCandidates_monomial settings.indexWidth wide
    (fun k hk => seeds k (sub.subset hk)) bounded' fun a ha => term.leaf_of_mem a (sub'.subset ha)
  refine ⟨g, ?_, .monomial made, coef ▸ Int.natCast_nonneg _, .inl ⟨?_, .inl made⟩⟩
  · rw [divisorOfTerms_first settings w (List.dropWhile_cons_of_neg (by simp [term.isZero]))]
    simp only [seeded, ok_bind, matched, join]
  · rw [made.content, coef, Int.natAbs_natCast, common, total, commonContent_cons, term.content]

/-- A sum is searched as a whole. -/
private theorem divisorOfTerms_sum (settings : Settings) (wide : 2 ≤ w) {fs : List Expr}
    (whole : Linear w (sum fs)) (linear : ∀ u ∈ ts, Linear w u) :
    ∃ g, (divisorOfTerms settings w (sum fs :: ts)).outcome = .ok g ∧ Found w (sum fs :: ts) g := by
  have pos : 0 < w := by omega
  obtain ⟨kept, matched, kinds⟩ :=
    matchingAll_sum settings.indexWidth wide (whole.hasBits pos) linear
  have seeded : (candidates settings (factorsOf (sum fs))).outcome = .ok [sum fs] := rfl
  have nonzero : (sum fs).isZero = false := rfl
  rw [divisorOfTerms_first settings w (List.dropWhile_cons_of_neg (by simp [nonzero]))]
  simp only [seeded, ok_bind, matched]
  rcases kinds with rfl | ⟨rfl, same⟩
  · exact ⟨const 1 w, one_small pos (small_one wide), found_one wide _⟩
  · refine ⟨sum fs, rfl, whole, zero_le_one, .inl ⟨?_, .inr ?_⟩⟩
    · refine (Nat.gcd_eq_left (dvd_commonContent.mpr fun t ht => ?_)).symm
      rcases same t ht with rfl | zero
      · exact dvd_rfl
      · rw [((linear t ht).isZero_iff wide).mp zero]
        exact dvd_zero _
    · simpa using same

private theorem Found.beside_zero {g : Expr} (found : Found w ts g) : Found w (const 0 w :: ts) g where
  linear := found.linear
  sign := found.sign
  common := by
    have same : commonContent (const 0 w :: ts) = commonContent ts := Nat.gcd_zero_left _
    rw [same]
    refine found.common.imp_left fun ⟨exact, kind⟩ => ⟨exact, kind.imp_right fun all t ht => ?_⟩
    rcases List.mem_cons.mp ht with rfl | ht
    · exact .inr rfl
    · exact all t ht

/-- The search begins with the first term that is not zero. -/
private theorem divisorOfTerms_linear (settings : Settings) (wide : 2 ≤ w) (some : ts ≠ [])
    (linear : ∀ t ∈ ts, Linear w t) :
    ∃ g, (divisorOfTerms settings w ts).outcome = .ok g ∧ Found w ts g := by
  induction ts with
  | nil => exact absurd rfl some
  | cons t ts ih =>
    have rest : ∀ u ∈ ts, Linear w u := fun u hu => linear u (by simp [hu])
    cases linear t (by simp) with
    | zero =>
      cases ts with
      | nil =>
        have none : content (const 0 w) = commonContent [const 0 w] := by
          simp [content, commonContent, gcdAll]
        refine ⟨const 0 w, zero_eq (by omega), .zero, le_rfl, .inl ⟨none, .inr fun t ht => .inr ?_⟩⟩
        rw [List.mem_singleton.mp ht]
        rfl
      | cons u us =>
        obtain ⟨g, run, found⟩ := ih (by simp) rest
        exact ⟨g, run, found.beside_zero⟩
    | monomial term => exact divisorOfTerms_monomial settings wide term rest
    | sum several terms apart =>
      exact divisorOfTerms_sum settings wide (.sum several terms apart) rest

theorem commonContent_exact (each : List.Forall₂ (fun e t => Condenses w (content e) t) es ts)
    (none : ∀ t ∈ ts, Monomial w t → content t ≠ 1) : commonContent ts = commonContent es := by
  induction each with
  | nil => rfl
  | @cons e t es ts here _ ih =>
    have first := here.exact.resolve_right fun h => none t (by simp) h.1 h.2
    rw [commonContent_cons, commonContent_cons, first, ih fun u hu => none u (by simp [hu])]

/-- What is found for the terms of expressions condenses the expressions. -/
private theorem divisorOfTerms_condenses (settings : Settings) (wide : 2 ≤ w) (some : ts ≠ [])
    (each : List.Forall₂ (fun e t => Condenses w (content e) t) es ts) :
    ∃ g, (divisorOfTerms settings w ts).outcome = .ok g ∧ Condenses w (commonContent es) g ∧
      0 ≤ coefficient g := by
  have linear : ∀ t ∈ ts, Linear w t := by
    intro t ht
    obtain ⟨e, he, condenses⟩ := exists_of_forall₂ each ht
    exact condenses.linear
  obtain ⟨g, run, found⟩ := divisorOfTerms_linear settings wide some linear
  refine ⟨g, run, ⟨found.linear, ?_⟩, found.sign⟩
  rcases found.common with ⟨common, kind⟩ | unit
  · by_cases lost : ∃ t ∈ ts, Monomial w t ∧ content t = 1
    · obtain ⟨t, ht, term, unit⟩ := lost
      refine .inr ?_
      rcases kind with made | same
      · refine ⟨made, Nat.eq_one_of_dvd_one ?_⟩
        rw [common, ← unit]
        exact dvd_commonContent.mp dvd_rfl t ht
      · rcases same t ht with rfl | zero
        · exact ⟨term, unit⟩
        · simp [term.isZero] at zero
    · push Not at lost
      exact .inl (common.trans (commonContent_exact each lost))
  · exact .inr unit

/-- The factors of a monomial that are kept, constants among them, multiply to a monomial with the
same coefficient and those of the leaves that are kept. -/
theorem productOf_filter (iw : Int) (wide : 2 ≤ w) (term : Monomial w e) {p : Expr → Bool}
    (constants : ∀ v b, p (const v b) = true) (filled : (factorsOf e).filter p ≠ []) :
    ∃ r, productOf iw ((factorsOf e).filter p) = .ok r ∧ Monomial w r ∧
      coefficient r = coefficient e ∧ (leaves r).Perm ((leaves e).filter p) := by
  have ofLeaves {as : List Expr} (each : ∀ a ∈ as, Leaf w a) : ∀ a ∈ as.filter p, Leaf w a :=
    fun a ha => each a (List.mem_of_mem_filter ha)
  obtain ⟨parts, coefs, rest⟩ : (∀ f ∈ (factorsOf e).filter p, Monomial w f) ∧
      (((factorsOf e).filter p).map coefficient).prod = coefficient e ∧
        ((factorsOf e).filter p).flatMap leaves = (leaves e).filter p := by
    cases term with
    | const some bounded => simpa [factorsOf, constants] using Monomial.const some bounded
    | leaf leaf =>
      have each := @ofLeaves [e] (by simpa using leaf)
      rw [leaf.factorsOf, leaf.leaves, leaf.coefficient]
      exact ⟨fun f hf => .leaf (each f hf), prod_coefficient_leaves each, flatMap_leaves each⟩
    | product several each =>
      rw [(coefficient_product several each).1, (coefficient_product several each).2]
      exact ⟨fun f hf => .leaf (ofLeaves each f hf), prod_coefficient_leaves (ofLeaves each),
        flatMap_leaves (ofLeaves each)⟩
    | @scaled v es some _ bounded _ each =>
      have front : (factorsOf (product (const v w :: es))).filter p = const v w :: es.filter p :=
        List.filter_cons_of_pos (constants v w)
      rw [front, leaves_scaled]
      refine ⟨?_, ?_, ?_⟩
      · simpa using ⟨.const some bounded, fun f hf h => .leaf (ofLeaves each f (by simp [hf, h]))⟩
      · rw [List.map_cons, List.prod_cons, prod_coefficient_leaves (ofLeaves each), mul_one]
        rfl
      · rw [List.flatMap_cons, flatMap_leaves (ofLeaves each)]
        rfl
  have bounded := (term.coefficient_bounded wide).1
  obtain ⟨r, run, made, coef, same⟩ := productOf_monomials iw wide filled parts (by rwa [coefs])
  exact ⟨r, run, made, coef.trans coefs, rest ▸ same⟩

private theorem searchTerms_taken (divisor : List Expr → Traced Expr) (iw : Int) (taken : e.isTaken = true) :
    (searchTerms divisor iw e).outcome = .ok [e] := by
  cases e with
  | const v b => rfl
  | unknown s b => rfl
  | nary op es => cases op <;> first | rfl | simp [isTaken] at taken
  | cast k a b =>
    cases a with
    | unknown s b => rfl
    | nary op es => cases op <;> first | rfl | simp [isTaken] at taken
    | _ => simp [isTaken] at taken
  | _ => simp [isTaken] at taken

private theorem ofFactor_closed (iw : Int) (closed : e.isOpened = false) :
    ProductParts.ofFactor iw e = .ok (if e.isTaken then .still e else .nothing) := by
  cases e with
  | nary op es => cases op <;> rfl
  | cast k a b =>
    cases a with
    | nary op es => cases op <;> rfl
    | recurrence a b l => simp [isOpened] at closed
    | _ => rfl
  | recurrence a b l => simp [isOpened] at closed
  | _ => rfl

private theorem ofFactors_closed (iw : Int) (closed : ∀ e ∈ es, e.isOpened = false) :
    ProductParts.ofFactors iw es = .ok ⟨es.filter isTaken, es.filter isTaken, false⟩ := by
  induction es with
  | nil => rfl
  | cons e es ih =>
    have rest := ih fun f hf => closed f (by simp [hf])
    rw [ProductParts.ofFactors, ofFactor_closed iw (closed e (by simp)), rest]
    cases taken : e.isTaken <;>
      simp [taken, ProductParts.append, ProductParts.still, ProductParts.nothing]

/-- `divisor` condenses two affine expressions where it ends. -/
def Finds (divisor : List Expr → Traced Expr) (w : Int) : Prop :=
  ∀ a b d, Affine w a → Affine w b → (divisor [a, b]).outcome = .ok d →
    Condenses w (Nat.gcd (content a) (content b)) d

theorem Monomial.mem_factorsOf (term : Monomial w e) {f : Expr} :
    f ∈ factorsOf e ↔ f ∈ leaves e ∨
      f = .const (coefficient e) w ∧ (e.isConst = true ∨ coefficient e ≠ 1) := by
  cases term with
  | const _ _ => simp [factorsOf, isConst]
  | leaf leaf => simp [leaf.factorsOf, leaf.leaves, leaf.coefficient, leaf.isConst]
  | product several each =>
    rw [(coefficient_product several each).1, (coefficient_product several each).2]
    simp [factorsOf, isConst]
  | scaled _ other _ _ _ => simp [factorsOf, coefficient, other, or_comm]

theorem isSearchedFactor_of_isTaken (taken : e.isTaken = true) : isSearchedFactor e = true := by
  cases e with
  | nary op es => cases op <;> simp_all [isTaken, isSearchedFactor]
  | _ => simp_all [isTaken, isSearchedFactor]

/-- What is searched of a part of a recurrence is affine and has the same content. -/
theorem searchableProduct_affine {a : Expr} (wide : 2 ≤ w) (affine : Affine w e)
    (run : searchableProduct iw e = .ok a) : Affine w a ∧ content a = content e := by
  have whole (same : searchableProduct iw e = .ok e) : Affine w a ∧ content a = content e := by
    obtain rfl : e = a := Except.ok.inj (same.symm.trans run)
    exact ⟨affine, rfl⟩
  cases e with
  | nary op fs =>
    cases op with
    | product =>
      cases affine with
      | linear linear searched =>
        cases linear with
        | monomial term =>
          obtain ⟨⟨f, hf, taken⟩, closed⟩ := searched
          have some : (factorsOf (product fs)).filter isSearchedFactor ≠ [] :=
            List.ne_nil_of_mem (List.mem_filter.mpr ⟨hf, isSearchedFactor_of_isTaken taken⟩)
          obtain ⟨r, made, term', coef, same⟩ :=
            productOf_filter iw wide term (p := isSearchedFactor) (fun _ _ => rfl) some
          have run' : searchableProduct iw (product fs) = .ok r := by
            simp only [searchableProduct]
            split
            · next none => exact absurd none some
            · exact made
          obtain rfl : r = a := Except.ok.inj (run'.symm.trans run)
          refine ⟨.linear (.monomial term') ⟨?_, fun g hg => ?_⟩, ?_⟩
          · rcases term.mem_factorsOf.mp hf with leaf | ⟨rfl, other⟩
            · exact ⟨f, term'.mem_factorsOf.mpr (.inl (same.mem_iff.mpr
                (List.mem_filter.mpr ⟨leaf, isSearchedFactor_of_isTaken taken⟩))), taken⟩
            · refine ⟨_, term'.mem_factorsOf.mpr (.inr ⟨rfl, .inr ?_⟩), rfl⟩
              rw [coef]
              exact other.resolve_left (by simp [isConst])
          · rcases term'.mem_factorsOf.mp hg with leaf | ⟨rfl, -⟩
            · have kept := List.mem_of_mem_filter (same.mem_iff.mp leaf)
              exact closed g (term.mem_factorsOf.mpr (.inl kept))
            · rfl
          · rw [term'.content, term.content, coef]
    | _ => exact whole rfl
  | _ => exact whole rfl

/-- One term is searched for an affine expression. -/
private theorem searchTerms_affine (wide : 2 ≤ w) (finds : Finds divisor w) (affine : Affine w e)
    (run : (searchTerms divisor iw e).outcome = .ok ts) :
    ∃ t, ts = [t] ∧ Condenses w (content e) t := by
  cases affine with
  | linear linear searched =>
    have alone (single : factorsOf e = [e]) : ∃ t, ts = [t] ∧ Condenses w (content e) t := by
      obtain ⟨f, hf, taken⟩ := searched.taken
      obtain rfl : f = e := by simpa [single] using hf
      obtain rfl : [f] = ts := Except.ok.inj ((searchTerms_taken divisor iw taken).symm.trans run)
      exact ⟨f, rfl, linear, .inl rfl⟩
    cases e with
    | nary op fs =>
      cases op with
      | product =>
        cases linear with
        | monomial term =>
          obtain ⟨⟨f, hf, taken⟩, closed⟩ := searched
          have filled : (factorsOf (product fs)).filter isTaken ≠ [] :=
            List.ne_nil_of_mem (List.mem_filter.mpr ⟨hf, taken⟩)
          obtain ⟨t, made, term', coef, -⟩ :=
            productOf_filter iw wide term (p := isTaken) (fun _ _ => rfl) filled
          have parts := ofFactors_closed iw closed
          simp only [factorsOf] at parts made filled
          simp only [searchTerms, Traced.outcome_bind, Traced.outcome_lift, Traced.outcome_pure, parts,
            ok_bind, Bool.false_and, Bool.false_eq_true, if_false,
            List.isEmpty_eq_false_iff.mpr filled, made] at run
          obtain rfl := Except.ok.inj run
          exact ⟨t, rfl, .monomial term', .inl (by rw [term'.content, term.content, coef])⟩
      | _ => exact alone rfl
    | _ => exact alone rfl
  | recurrence start step =>
    simp only [searchTerms, Traced.outcome_bind, Traced.outcome_lift, Traced.outcome_pure] at run
    obtain ⟨a, ha, run⟩ := bind_eq_ok.mp run
    obtain ⟨b, hb, run⟩ := bind_eq_ok.mp run
    obtain ⟨d, hd, run⟩ := bind_eq_ok.mp run
    obtain rfl := Except.ok.inj run
    obtain ⟨first, same⟩ := searchableProduct_affine wide start ha
    obtain ⟨second, same'⟩ := searchableProduct_affine wide step hb
    have found := finds a b d first second hd
    rw [same, same'] at found
    exact ⟨d, rfl, found⟩

private theorem searchTermsOfList_affine (wide : 2 ≤ w) (finds : Finds divisor w)
    (affine : ∀ e ∈ es, Affine w e) (run : (searchTermsOfList divisor iw es).outcome = .ok ts) :
    List.Forall₂ (fun e t => Condenses w (content e) t) es ts := by
  induction es generalizing ts with
  | nil =>
    obtain rfl := Except.ok.inj run
    exact .nil
  | cons e es ih =>
    simp only [searchTermsOfList, Traced.outcome_bind, Traced.outcome_pure] at run
    obtain ⟨here, first, run⟩ := bind_eq_ok.mp run
    obtain ⟨rest, others, run⟩ := bind_eq_ok.mp run
    obtain rfl := Except.ok.inj run
    obtain ⟨t, rfl, condenses⟩ := searchTerms_affine wide finds (affine e (by simp)) first
    exact .cons condenses (ih (fun f hf => affine f (by simp [hf])) others)

private theorem divisorStep_affine (wide : 2 ≤ w) (finds : Finds divisor w) (some : es ≠ [])
    (affine : ∀ e ∈ es, Affine w e) {g : Expr}
    (run : (divisorStep divisor settings es).outcome = .ok g) :
    Condenses w (commonContent es) g ∧ 0 ≤ coefficient g := by
  obtain ⟨e, rest, rfl⟩ := List.exists_cons_of_ne_nil some
  have pos : 0 < w := by omega
  have bits := ((affine e (by simp)).hasBits pos).width
  have width : (if (Option.some w).getD 0 = 0 then settings.indexWidth
      else (Option.some w).getD settings.indexWidth) = w := if_neg pos.ne'
  simp only [divisorStep, Traced.outcome_bind, Traced.outcome_lift, bits, ok_bind, width] at run
  obtain ⟨ts, terms, run⟩ := bind_eq_ok.mp run
  obtain ⟨-, -, run⟩ := bind_eq_ok.mp run
  have each := searchTermsOfList_affine wide finds affine terms
  have filled : ts ≠ [] := List.ne_nil_of_length_pos (by rw [← each.length_eq]; simp)
  obtain ⟨g', run', found⟩ := divisorOfTerms_condenses settings wide filled each
  obtain rfl : g = g' := Except.ok.inj (run.symm.trans run')
  exact found

/-- Recurrences are opened by a search of the same kind. -/
theorem divisorWithin_affine (settings : Settings) (wide : 2 ≤ w) (fuel : Nat) {es : List Expr}
    (some : es ≠ []) (affine : ∀ e ∈ es, Affine w e) {g : Expr}
    (run : (divisorWithin settings fuel es).outcome = .ok g) :
    Condenses w (commonContent es) g ∧ 0 ≤ coefficient g := by
  induction fuel generalizing es g with
  | zero => simp [divisorWithin] at run
  | succ fuel ih =>
    refine divisorStep_affine wide (fun a b d first second found => ?_) some affine run
    have pair := (@ih [a, b] (by simp) (by simp [first, second]) d found).1
    simpa [commonContent, gcdAll] using pair

theorem commonDivisor_affine (settings : Settings) (wide : 2 ≤ w) (some : es ≠ [])
    (affine : ∀ e ∈ es, Affine w e) {g : Expr}
    (run : (commonDivisor settings es).outcome = .ok g) :
    Condenses w (commonContent es) g ∧ 0 ≤ coefficient g :=
  divisorWithin_affine settings wide _ some affine run

/-- Where the divisor found for expressions has a constant quotient by a number that divides them, it
is a constant that divides them, too. -/
theorem Condenses.constant_quotient {c p : Nat} {g r : Expr} {v b : Int} (iw : Int) (wide : 2 ≤ w)
    (found : Condenses w c g) (sign : 0 ≤ coefficient g) (positive : 0 < p) (small : Small w p)
    (divides : p ∣ c) (nonzero : v ≠ 0) (run : quotRem iw g (const p w) = .ok (const v b, r)) :
    ∃ d : Nat, d ∣ c ∧ p ∣ d ∧ 0 < d ∧ d < nestBound w ∧ const v b = const (d / p : Nat) w := by
  have some : (p : Int) ≠ 0 := by omega
  have whole : p ∣ content g := by
    rcases found.exact with exact | ⟨term, unit⟩
    · rwa [exact]
    · -- A larger number than the coefficient leaves nothing for the quotient.
      obtain ⟨q, r', run', out⟩ := quotRem_monomial iw wide term some
      obtain ⟨rfl, rfl⟩ := Prod.mk.inj (Except.ok.inj (run.symm.trans run'))
      by_contra apart
      rw [unit, Nat.dvd_one] at apart
      have none := out.none (term.coefficient_bounded wide).2 (by rw [← term.content]; omega)
      injection none with none
      exact nonzero none
  obtain ⟨q, r', run', out⟩ := quotRem_linear iw wide found.linear small some
  obtain ⟨rfl, rfl⟩ := Prod.mk.inj (Except.ok.inj (run.symm.trans run'))
  have bounded := found.linear.content_bounded wide
  cases out with
  | rest other _ =>
    have minus := other whole
    omega
  | whole _ _ kind _ =>
    have constant := kind rfl
    cases g with
    | const u b' =>
      obtain rfl : b' = w := (found.linear.hasBits (show 0 < w by omega)).const_bits
      obtain ⟨d, rfl⟩ := Int.eq_ofNat_of_zero_le sign
      have number : content (const (d : Int) b') = d := rfl
      rw [number] at whole bounded
      have low : Small b' (d : Int) :=
        (searchable_of_bounded (show (d : Int).natAbs < nestBound b' from bounded)).1
      have division := quotRem_const iw (show 0 < b' by omega) low some
      obtain ⟨size, -⟩ := Prod.mk.inj (Except.ok.inj (run.symm.trans division))
      rw [← Int.ofNat_tdiv] at size
      refine ⟨d, ?_, whole, Nat.pos_of_ne_zero fun none => ?_, bounded, size⟩
      · rcases found.exact with exact | ⟨-, unit⟩
        · exact exact ▸ dvd_rfl
        · exact (number.symm.trans unit) ▸ one_dvd _
      · injection size with size
        simp [none] at size
        exact nonzero size
    | _ => simp [isConst] at constant

end search

/-- A number that divides the content is divided out part by part. -/
theorem quotRem_affine (iw : Int) (wide : 2 ≤ w) (affine : Affine w e) {g : Nat} (positive : 0 < g)
    (small : Small w g) (divides : g ∣ content e) :
    ∃ q, quotRem iw e (const g w) = .ok (q, const 0 w) := by
  have pos : 0 < w := by omega
  have nonzero : (g : Int) ≠ 0 := by omega
  induction affine with
  | linear linear _ =>
    obtain ⟨q, r, run, out⟩ := quotRem_linear iw wide linear small nonzero
    cases out with
    | whole _ _ _ none => exact ⟨q, none ▸ run⟩
    | rest other _ =>
      have sign := other divides
      omega
  | @recurrence a b l start step first second =>
    have typed := (Affine.recurrence (l := l) start step).hasBits pos
    obtain ⟨q, run⟩ := first (divides.trans (Nat.gcd_dvd_left _ _))
    obtain ⟨q', run'⟩ := second (divides.trans (Nat.gcd_dvd_right _ _))
    by_cases one : (g : Int) = 1
    · exact ⟨_, divideByAtom_now typed (immediateDivision_one pos (by simp) rfl (by simpa [isOne] using one))⟩
    · exact ⟨_, divideByAtom_recurrence typed
        (immediateDivision_none (by simp) rfl (by simpa [isOne] using one)) run run'⟩

end ShapeRecovery.Expr
