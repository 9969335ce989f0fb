import ShapeRecovery.Proofs.Expr.CommonFactors

namespace ShapeRecovery.Expr

open Factors (Makes nonzero common Tried unsigned)

variable {ds es fs : List Expr} {d e : Expr} {ms ms' : List Factors} {us : List Symbol} {c w iw : Int}

/-- What is searched for: an unknown, a sign, or a prime or one that is read as a word. -/
inductive Candidate (w : Int) : Expr → Prop
  | unknown {s : Symbol} (name : Text.isName s.name = true) : Candidate w (.unknown s w)
  | sign : Candidate w (.const (-1) w)
  | factor {p : Nat} (fits : p ≤ Word.modulus (w - 1)) (whole : p = 1 ∨ p.Prime) :
    Candidate w (.const ((p : Int).bmod (Word.modulus w)) w)

/-- The absolute value of the constants in a product. -/
def size (ds : List Expr) : Nat := (ds.map fun d => (coefficient d).natAbs).prod

@[simp] theorem size_nil : size [] = 1 := rfl

@[simp] theorem size_cons (d : Expr) (ds : List Expr) :
    size (d :: ds) = (coefficient d).natAbs * size ds := List.prod_cons

@[simp] theorem size_append (ds ds' : List Expr) : size (ds ++ ds') = size ds * size ds' := by
  simp [size]

theorem Candidate.natAbs_factor (wide : 2 ≤ w) {p : Nat} (fits : p ≤ Word.modulus (w - 1)) :
    ((p : Int).bmod (Word.modulus w)).natAbs = p :=
  Word.natAbs_bmod (show 0 < w by omega) fits

theorem Candidate.proper (wide : 2 ≤ w) (candidate : Candidate w d) : Proper w d := by
  have pos : 0 < w := by omega
  cases candidate with
  | unknown name => exact ⟨.unknown pos, named_unknown.mpr name⟩
  | sign => exact ⟨.const pos (Small.inRange (small_one wide)), named_const⟩
  | factor => exact ⟨.const pos (Word.inRange_bmod pos _), named_const⟩

/-- Constants that are searched for cannot be broken up. -/
theorem Candidate.constant {k : Int} (wide : 2 ≤ w) (candidate : Candidate w (.const k w)) :
    k.natAbs = 1 ∨ k.natAbs.Prime := by
  cases candidate with
  | sign => exact .inl rfl
  | factor fits whole => rwa [natAbs_factor wide fits]

/-- How much of the candidates `ds` is kept by a term: of the constants what they have in common with its
coefficient, and of the unknowns as many as it has. -/
structure Kept (w c : Int) (us : List Symbol) (ds kept : List Expr) : Prop where
  part : kept.Sublist ds
  size : size kept = Nat.gcd (size ds) c.natAbs
  unknowns : ∀ s, kept.count (unknown s w) = min (ds.count (unknown s w)) (us.count s)

private theorem matching_unknown (iw : Int) {s : Symbol} (term : TermOf iw w c us e)
    (name : Text.isName s.name = true)
    (ih : ∀ {us e}, TermOf iw w c us e → ∃ kept, matching iw ds e = .ok kept ∧ Kept w c us ds kept) :
    ∃ kept, matching iw (unknown s w :: ds) e = .ok kept ∧ Kept w c us (unknown s w :: ds) kept := by
  by_cases mem : s ∈ us
  · obtain ⟨q, run, rest⟩ := term.divide_unknown mem
    obtain ⟨kept, found, part, size, counts⟩ := ih rest
    refine ⟨unknown s w :: kept, ?_, part.cons_cons _, ?_, fun t => ?_⟩
    · simp only [matching, run, found, ok_bind, isZero]
      rfl
    · simpa [coefficient] using size
    · have some : 0 < us.count s := List.count_pos_iff.mpr mem
      have count := counts t
      by_cases same : s = t
      · subst same
        simp only [List.count_cons_self, List.count_erase_self] at count ⊢
        omega
      · rw [List.count_cons_of_ne (by simpa using same), List.count_cons_of_ne (by simpa using same),
          count, List.count_erase_of_ne (Ne.symm same)]
  · obtain ⟨q, r, run, other⟩ := term.divide_other name mem
    obtain ⟨kept, found, part, size, counts⟩ := ih term
    refine ⟨kept, ?_, part.cons _, ?_, fun t => ?_⟩
    · simp only [matching, run, found, ok_bind, other]
      rfl
    · simpa [coefficient] using size
    · have none : us.count s = 0 := List.count_eq_zero.mpr mem
      by_cases same : s = t
      · subst same
        have count := counts s
        simp only [List.count_cons_self] at count ⊢
        omega
      · rw [counts t, List.count_cons_of_ne (by simpa using same)]

private theorem matching_constant (iw : Int) {k : Int} (term : TermOf iw w c us e)
    (whole : k.natAbs = 1 ∨ k.natAbs.Prime)
    (ih : ∀ {c e}, TermOf iw w c us e → ∃ kept, matching iw ds e = .ok kept ∧ Kept w c us ds kept) :
    ∃ kept, matching iw (const k w :: ds) e = .ok kept ∧ Kept w c us (const k w :: ds) kept := by
  have nonzero : k ≠ 0 := by
    rintro rfl
    simp [Nat.not_prime_zero] at whole
  have fresh (t : Symbol) : unknown t w ≠ const k w := by simp
  obtain ⟨q, r, run, ⟨rfl, j, rest, total⟩ | ⟨other, sign⟩⟩ := term.divide_constant nonzero
  · obtain ⟨kept, found, part, size, counts⟩ := ih rest
    refine ⟨const k w :: kept, ?_, part.cons_cons _, ?_, fun t => ?_⟩
    · simp only [matching, run, found, ok_bind, isZero]
      rfl
    · rw [size_cons, size_cons, size, ← total, mul_comm j.natAbs, coefficient_const, Nat.gcd_mul_left]
    · rw [List.count_cons_of_ne (fresh t).symm, List.count_cons_of_ne (fresh t).symm, counts t]
  · obtain ⟨kept, found, part, size, counts⟩ := ih term
    refine ⟨kept, ?_, part.cons _, ?_, fun t => ?_⟩
    · simp only [matching, run, found, ok_bind, other]
      rfl
    · rw [size, size_cons, coefficient_const]
      rcases whole with one | prime
      · rw [one, one_mul]
      · -- Only a sign divides the coefficient and is left over, and a sign is no prime.
        refine (gcd_mul_of_not_dvd prime _ fun divides => ?_).symm
        rw [sign (Int.natAbs_dvd_natAbs.mp divides)] at prime
        exact absurd prime (by decide)
    · rw [counts t, List.count_cons_of_ne (fresh t).symm]

/-- A term keeps the candidates that it has. -/
private theorem matching_term (iw : Int) (each : ∀ d ∈ ds, Candidate w d) (term : TermOf iw w c us e) :
    ∃ kept, matching iw ds e = .ok kept ∧ Kept w c us ds kept := by
  induction ds generalizing c us e with
  | nil => exact ⟨[], rfl, .refl _, by simp, by simp⟩
  | cons d ds ih =>
    obtain ⟨first, rest⟩ := List.forall_mem_cons.mp each
    cases d with
    | unknown s b =>
      cases first with
      | unknown name => exact matching_unknown iw term name fun term => ih rest term
    | const k b =>
      obtain rfl : b = w := by cases first <;> rfl
      exact matching_constant iw term (first.constant term.wide) fun term => ih rest term
    | _ => cases first

/-- Several terms keep what the candidates have in common with all of them. -/
private theorem matchingAll_terms (iw : Int)
    (made : List.Forall₂ (Makes iw w) ms es) (each : ∀ d ∈ ds, Candidate w d) :
    ∃ kept, matchingAll iw es ds = .ok kept ∧ kept.Sublist ds ∧
      size kept = Nat.gcd (size ds) (gcdAll ((nonzero w ms).map (Factors.word w))) ∧
      ∀ s n, n ≤ kept.count (unknown s w) ↔
        n ≤ ds.count (unknown s w) ∧ ∀ m ∈ nonzero w ms, n ≤ m.symbols.count s := by
  induction made generalizing ds with
  | nil => exact ⟨ds, rfl, .refl _, by simp [nonzero, gcdAll], by simp [nonzero]⟩
  | @cons m e ms es here rest ih =>
    rcases here with ⟨none, rfl⟩ | term
    · rw [Factors.nonzero_skip none, matchingAll, isZero]
      exact ih each
    · have front := Factors.nonzero_cons term.nonzero ms
      obtain ⟨left, run, part, size, counts⟩ := matching_term iw each term
      obtain ⟨kept, run', part', size', counts'⟩ := ih fun d hd => each d (part.subset hd)
      refine ⟨kept, (matchingAll_cons iw term.isZero run).trans run', part'.trans part, ?_, fun s n => ?_⟩
      · rw [size', size, front, List.map_cons, gcdAll, Nat.gcd_assoc]
      · rw [counts', counts, front, List.forall_mem_cons, le_min_iff, and_assoc]

private theorem signFactor_candidates (wide : 2 ≤ w) (c : Int) : ∃ sign, signFactor c w = .ok sign ∧
    (∀ d ∈ sign, Candidate w d ∧ d.isConst = true) ∧ size sign = 1 := by
  by_cases negative : c < 0
  · have minus : Word.InRange (-1) w := Small.inRange (small_one wide)
    refine ⟨[const (-1) w], ?_, by simpa using ⟨.sign, rfl⟩, by simp⟩
    simp [signFactor, negative, ofInt_eq (show 0 < w by omega),
      Word.bmod_of_inRange (show 0 < w by omega) minus]
  · exact ⟨[], by simp [signFactor, negative], by simp, rfl⟩

/-- The primes of a constant as words are candidates, and multiply to its size. -/
private theorem primes_candidates (wide : 2 ≤ w) {ns : List Nat} (primes : ∀ n ∈ ns, n.Prime)
    (fits : ∀ n ∈ ns, n ≤ Word.modulus (w - 1)) : ∃ ds, (ns.mapM fun n : Nat => ofInt n w) = .ok ds ∧
      (∀ d ∈ ds, Candidate w d ∧ d.isConst = true) ∧ size ds = ns.prod := by
  refine ⟨_, mapM_ok fun n _ => ofInt_eq (show 0 < w by omega) n, ?_, ?_⟩
  · exact List.forall_mem_map.mpr fun n hn => ⟨.factor (fits n hn) (.inr (primes n hn)), rfl⟩
  · have same : ∀ n ∈ ns, ((n : Int).bmod (Word.modulus w)).natAbs = id n :=
      fun n hn => Candidate.natAbs_factor wide (fits n hn)
    rw [size, List.map_map]
    exact congrArg List.prod ((List.map_congr_left same).trans (List.map_id ns))

/-- The candidates of a constant multiply to it. -/
private theorem constantDivisors_candidates (settings : Settings) (wide : 2 ≤ w) (inRange : Word.InRange c w)
    (some : c ≠ 0) (few : (Number.pastLimit c.natAbs).length ≤ 1) :
    ∃ ds, (constantDivisors settings (const c w)).outcome = .ok ds ∧
      (∀ d ∈ ds, Candidate w d ∧ d.isConst = true) ∧ size ds = c.natAbs := by
  have pos : 0 < w := by omega
  have bound := Word.natAbs_le_of_inRange inRange
  obtain ⟨sign, hsign, signs, single⟩ := signFactor_candidates wide c
  have head : (constantDivisors settings (const c w)).outcome =
      (sizeFactors settings c w sign).outcome := by
    simp [constantDivisors, some, hsign]
  rw [head]
  by_cases one : c.natAbs = 1
  · have unit : Candidate w (const (((1 : Nat) : Int).bmod (Word.modulus w)) w) :=
      .factor (one ▸ bound) (.inl rfl)
    rw [Nat.cast_one, Word.bmod_of_inRange pos (one_inRange wide)] at unit
    refine ⟨sign ++ [const 1 w], ?_, ?_, by simp [single, one]⟩
    · simp only [sizeFactors, one, if_true, one_eq pos, Word.bmod_of_inRange pos (one_inRange wide),
        Traced.outcome_bind, Traced.outcome_lift, ok_bind, Traced.outcome_pure]
    · exact List.forall_mem_append.mpr ⟨signs, by simpa using ⟨unit, rfl⟩⟩
  · obtain ⟨ns, found, total⟩ := Number.factors_spec some
    have fits : ∀ n ∈ ns, n ≤ Word.modulus (w - 1) := fun n hn =>
      (Nat.le_of_dvd (Int.natAbs_pos.mpr some) (total ▸ List.dvd_prod hn)).trans bound
    obtain ⟨ds, parts, each, product⟩ :=
      primes_candidates wide (Number.factors_prime_of_few found few) fits
    have all := List.forall_mem_append.mpr ⟨signs, each⟩
    have typed : AllBits (sign ++ ds) w := fun d hd => ((all d hd).1.proper wide).typed
    refine ⟨sign ++ ds, ?_, all, by rw [size_append, single, one_mul, product, total]⟩
    simp only [sizeFactors, one, if_false, found, parts, Traced.outcome_bind, Traced.outcome_lift,
      ok_bind, sayRow_ok settings _ typed.texts, Traced.outcome_pure]

/-- The candidates of unknowns and of a constant: they have the same size and the same unknowns. -/
private theorem candidates_factors (settings : Settings) (wide : 2 ≤ w) (inRange : Word.InRange c w)
    (some : c ≠ 0) (few : (Number.pastLimit c.natAbs).length ≤ 1)
    (each : ∀ f ∈ fs, f = const c w ∨ IsUnknown w f) :
    ∃ ds, (candidates settings fs).outcome = .ok ds ∧ (∀ d ∈ ds, Candidate w d) ∧ size ds = size fs ∧
      ∀ s, ds.count (unknown s w) = fs.count (unknown s w) := by
  induction fs with
  | nil => exact ⟨[], rfl, by simp, rfl, fun s => rfl⟩
  | cons f fs ih =>
    obtain ⟨first, rest⟩ := List.forall_mem_cons.mp each
    obtain ⟨ds, found, good, total, counts⟩ := ih rest
    simp only [candidates, Traced.outcome_bind, Traced.outcome_pure, found]
    rcases first with rfl | ⟨s, rfl, name⟩
    · obtain ⟨front, found', good', total'⟩ := constantDivisors_candidates settings wide inRange some few
      have none (s : Symbol) : front.count (unknown s w) = 0 := by
        refine List.count_eq_zero.mpr fun mem => ?_
        cases (good' _ mem).2
      refine ⟨front ++ ds, ?_, ?_, by simp [total, total'], fun s => ?_⟩
      · simp [factorCandidates, isConst, found']
      · exact List.forall_mem_append.mpr ⟨fun d hd => (good' d hd).1, good⟩
      · rw [List.count_append, none, counts, List.count_cons_of_ne (by simp), zero_add]
    · refine ⟨unknown s w :: ds, ?_, List.forall_mem_cons.mpr ⟨.unknown name, good⟩,
        by simp [total], fun t => ?_⟩
      · simp [factorCandidates, isConst]
      · rw [List.count_cons, List.count_cons, counts]

private theorem size_perm {ds' : List Expr} (perm : ds.Perm ds') : size ds = size ds' :=
  (perm.map _).prod_eq

private theorem size_unknowns (w : Int) (us : List Symbol) : size (unknowns w us) = 1 := by
  induction us with
  | nil => rfl
  | cons s us ih => simpa [coefficient] using ih

private theorem size_written (w c : Int) : size (written w c) = c.natAbs := by
  unfold written
  split
  · next one =>
    rw [one]
    rfl
  · simp

theorem count_unknowns (w : Int) (us : List Symbol) (s : Symbol) :
    (unknowns w us).count (unknown s w) = us.count s :=
  List.count_map_of_injective us _ (fun _ _ same => (Expr.unknown.inj same).1) s

/-- The factors of a term are its unknowns and its coefficient, where this is written. -/
theorem TermOf.factorsOf (term : TermOf iw w c us e) :
    (∀ f ∈ factorsOf e, f = const c w ∨ IsUnknown w f) ∧ size (factorsOf e) = c.natAbs ∧
      ∀ s, (Expr.factorsOf e).count (unknown s w) = us.count s := by
  rcases term.shape with ⟨rfl, rfl⟩ | ⟨s, rfl, rfl, rfl⟩ | ⟨fs, rfl, perm, -⟩
  · exact ⟨by simp [Expr.factorsOf], by simp [Expr.factorsOf], by simp [Expr.factorsOf]⟩
  · refine ⟨?_, rfl, count_unknowns w [s]⟩
    simpa [Expr.factorsOf] using term.known _ (List.mem_singleton_self _)
  · refine ⟨fun f hf => ?_, ?_, fun s => ?_⟩
    · exact (List.mem_append.mp (perm.mem_iff.mp hf)).imp (isConst_of_written f) (term.known f)
    · rw [Expr.factorsOf, size_perm perm, size_append, size_written, size_unknowns, mul_one]
    · have none : (written w c).count (unknown s w) = 0 :=
        List.count_eq_zero.mpr fun mem => by cases isConst_of_written _ mem
      rw [Expr.factorsOf, perm.count_eq, List.count_append, none, zero_add, count_unknowns]

/-- Without the signs, the constants of candidates multiply to their absolute value. -/
private theorem constantFactor_candidates (wide : 2 ≤ w) (c : Int)
    (each : ∀ d ∈ ds, Candidate w d ∧ isMinusOne d = false) :
    constantFactor w (c.bmod (Word.modulus w)) ds = .ok ((c * size ds).bmod (Word.modulus w)) := by
  have pos : 0 < w := by omega
  induction ds generalizing c with
  | nil => simp [constantFactor]
  | cons d ds ih =>
    obtain ⟨⟨first, plus⟩, rest⟩ := List.forall_mem_cons.mp each
    cases first with
    | unknown => simpa [constantFactor, coefficient] using ih c rest
    | sign => cases plus
    | @factor p fits whole =>
      have step := ih (c * p) rest
      rw [size_cons, coefficient_const, Candidate.natAbs_factor wide fits, Nat.cast_mul, ← mul_assoc,
        ← step]
      simp only [constantFactor, Word.signed_eq pos, ok_bind, Int.bmod_mul_bmod, Int.mul_bmod_bmod]

/-- A list of candidates without the signs has the size of all of them. -/
private theorem size_unsigned (each : ∀ d ∈ ds, Candidate w d) :
    size (ds.filter fun d => !isMinusOne d) = size ds := by
  induction ds with
  | nil => rfl
  | cons d ds ih =>
    obtain ⟨first, rest⟩ := List.forall_mem_cons.mp each
    cases minus : isMinusOne d with
    | false => simp [minus, ih rest]
    | true =>
      have sign : (coefficient d).natAbs = 1 := by
        cases first with
        | unknown => cases minus
        | sign => rfl
        | factor =>
          have value := beq_iff_eq.mp minus
          rw [coefficient_const, value]
          rfl
      simp [minus, sign, ih rest]

/-- Candidates other than a sign are multiplied to their size and their unknowns. -/
theorem productOf_candidates (iw : Int) (wide : 2 ≤ w) (some : ds ≠ [])
    (each : ∀ d ∈ ds, Candidate w d ∧ isMinusOne d = false)
    (counts : ∀ s, us.count s = ds.count (unknown s w)) :
    productOf iw ds = Factors.product iw w ⟨size ds, us⟩ := by
  have pos : 0 < w := by omega
  have known : ∀ u ∈ unknowns w us, IsUnknown w u := by
    refine List.forall_mem_map.mpr fun s hs => ?_
    have mem : unknown s w ∈ ds := List.count_pos_iff.mp (counts s ▸ List.count_pos_iff.mpr hs)
    cases (each _ mem).1 with
    | unknown name => exact ⟨s, rfl, name⟩
  have leaves : ∀ u ∈ unknowns w us, Leaf w u := fun u hu => (known u hu).leaf pos
  have opened : ∀ d ∈ ds, d.naryOp? ≠ Option.some .product := by
    intro d hd
    cases (each d hd).1 <;> simp [naryOp?]
  have factor := constantFactor_candidates wide 1 each
  rw [Factors.product_eq iw pos, Factors.word]
  refine productOf_congr iw some (List.cons_ne_nil _ _) (fun d hd => (each d hd).1.proper wide)
    (AllProper.cons.mpr ⟨⟨.const pos (Word.inRange_bmod pos _), named_const⟩, allProper_unknowns pos known⟩)
    ?_ ?_
  · rw [Word.bmod_of_inRange pos (one_inRange wide), one_mul] at factor
    rw [flatten_opened opened, factor]
    refine Eq.trans ?_ (constantFactor_append_leaves pos leaves 1 [const _ w]).symm
    simp [flatten, constantFactor, Word.signed_eq pos]
  · rw [show plainFactors (const _ w :: unknowns w us) = unknowns w us from
      plainFactors_leaves leaves [const _ w], plainFactors, flatten_opened opened]
    refine List.perm_iff_count.mpr fun a => ?_
    by_cases found : ∃ s, a = unknown s w
    · obtain ⟨s, rfl⟩ := found
      rw [List.count_filter rfl, count_unknowns, counts]
    · rw [List.count_eq_zero.mpr fun mem => ?_, List.count_eq_zero.mpr fun mem => ?_]
      · obtain ⟨s, rfl, -⟩ := known a mem
        exact found ⟨s, rfl⟩
      · obtain ⟨mem, other⟩ := List.mem_filter.mp mem
        cases (each a mem).1 with
        | unknown => exact found ⟨_, rfl⟩
        | sign => cases other
        | factor => cases other

/-- What is left of the candidates is joined to their size and their unknowns. -/
private theorem joinCandidates_factors (iw : Int) (wide : 2 ≤ w) (each : ∀ d ∈ ds, Candidate w d)
    (counts : ∀ s, us.count s = ds.count (unknown s w)) :
    joinCandidates iw w (ds.filter fun d => !isMinusOne d) = Factors.product iw w ⟨size ds, us⟩ := by
  have pos : 0 < w := by omega
  have each' : ∀ d ∈ ds.filter fun d => !isMinusOne d, Candidate w d ∧ isMinusOne d = false :=
    fun d hd => ⟨each d (List.mem_of_mem_filter hd), by simpa using (List.mem_filter.mp hd).2⟩
  have counts' (s : Symbol) :
      us.count s = (ds.filter fun d => !isMinusOne d).count (unknown s w) := by
    rw [counts, List.count_filter rfl]
  rw [← size_unsigned each]
  generalize (ds.filter fun d => !isMinusOne d) = ds at each' counts'
  rcases ds with _ | ⟨d, _ | ⟨d', ds⟩⟩
  · obtain rfl : us = [] := by
      refine List.eq_nil_iff_forall_not_mem.mpr fun s hs => ?_
      exact absurd (counts' s) (List.count_pos_iff.mpr hs).ne'
    have unit := Word.inRange_bmod pos ((size [] : Nat) : Int)
    rw [Factors.product_eq iw pos, unknowns, List.map_nil, Factors.word,
      productOf_const iw (.const pos unit)]
    exact one_eq pos
  · have multiplied : Multiplied d := by
      cases (each' d (by simp)).1 with
      | unknown => exact .unknown _ _
      | sign => exact .const _ _
      | factor => exact .const _ _
    rw [← productOf_candidates iw wide (by simp) each' counts']
    exact (productOf_self iw wide multiplied ((each' d (by simp)).1.proper wide).typed).symm
  · exact productOf_candidates iw wide (by simp) each' counts'

private theorem divisorOfTerms_factors (settings : Settings) (wide : 2 ≤ w) (some : ms ≠ [])
    (tried : Tried w ms) (made : List.Forall₂ (Makes settings.indexWidth w) ms es) :
    (divisorOfTerms settings w es).outcome = (common w ms).product settings.indexWidth w := by
  have pos : 0 < w := by omega
  have filled : es ≠ [] := by
    rintro rfl
    exact some (List.forall₂_nil_right_iff.mp made)
  rcases Factors.first_term made with ⟨none, left⟩ | ⟨m, ms', e, es', front, left, term, rest⟩
  · rw [divisorOfTerms_zeros settings w filled left, Factors.common_product_zero _ pos none, zero_eq pos]
  -- The candidates have the size and the unknowns of the first term, and the others keep of them what is
  -- common to all.
  obtain ⟨parts, total, counts⟩ := term.factorsOf
  have few := tried m (by simp [front])
  obtain ⟨ds, offered, good, sized, counted⟩ :=
    candidates_factors settings wide term.inRange term.nonzero few parts
  obtain ⟨kept, run, part, common', keeps⟩ := matchingAll_terms settings.indexWidth rest good
  have same (t : Symbol) : (common w ms).symbols.count t = kept.count (unknown t w) := by
    refine eq_of_forall_le_iff fun n => ?_
    rw [keeps, counted, counts, Factors.le_count_common (by simp [front]), front, List.forall_mem_cons]
  have join := joinCandidates_factors settings.indexWidth wide (fun d hd => good d (part.subset hd)) same
  rw [common', sized, total] at join
  rw [divisorOfTerms_first settings w left]
  simp only [offered, run, ok_bind, join]
  simp only [common, front]
  rfl

/-- A term is searched as it is. -/
private theorem searchTerms_factors (divisor : List Expr → Traced Expr) (iw : Int) {m : Factors}
    (made : m.Makes iw w e) : (searchTerms divisor iw e).outcome = .ok [e] := by
  rcases made with ⟨-, rfl⟩ | term
  · rfl
  rcases term.shape with ⟨-, rfl⟩ | ⟨s, -, -, rfl⟩ | ⟨fs, rfl, perm, several⟩
  · rfl
  · rfl
  have still {gs : List Expr} (each : ∀ f ∈ gs, f = const (m.word w) w ∨ ∃ s ∈ m.symbols, f = unknown s w) :
      ProductParts.ofFactors iw gs = .ok ⟨gs, gs, false⟩ := by
    induction gs with
    | nil => rfl
    | cons f gs ih =>
      obtain ⟨first, rest⟩ := List.forall_mem_cons.mp each
      rcases first with rfl | ⟨s, -, rfl⟩ <;> simp only [ProductParts.ofFactors, ih rest] <;> rfl
  have run := productOf_factors iw term.wide term.multiplied term.proper
  have some : fs.isEmpty = false := by
    rw [List.isEmpty_eq_false_iff]
    exact List.ne_nil_of_length_pos (by omega)
  simp only [searchTerms, still (TermOf.mem_factors perm), some, Bool.false_and, Bool.false_eq_true,
    if_false, Traced.outcome_bind, Traced.outcome_lift, ok_bind, run, Traced.outcome_pure]

private theorem searchTermsOfList_factors (divisor : List Expr → Traced Expr) (iw : Int)
    (made : List.Forall₂ (Makes iw w) ms es) :
    (searchTermsOfList divisor iw es).outcome = .ok es := by
  induction made with
  | nil => rfl
  | cons here rest ih =>
    simp only [searchTermsOfList, Traced.outcome_bind, searchTerms_factors divisor iw here, ih, ok_bind,
      Traced.outcome_pure, List.singleton_append]

/-- The search finds what the factors have in common. -/
theorem commonDivisor_made (settings : Settings) (wide : 2 ≤ w) (some : ms ≠ []) (tried : Tried w ms)
    (made : List.Forall₂ (Makes settings.indexWidth w) ms es) :
    (commonDivisor settings es).outcome = (common w ms).product settings.indexWidth w := by
  rw [← divisorOfTerms_factors settings wide some tried made]
  have pos : 0 < w := by omega
  have typed : AllBits es w := by
    intro e he
    obtain ⟨m, -, ⟨-, rfl⟩ | term⟩ := exists_of_forall₂ made he
    · exact hasBits_zero pos
    · exact term.proper.typed
  obtain ⟨e, rest, rfl⟩ : ∃ e rest, es = e :: rest := by
    cases made with
    | nil => exact absurd rfl some
    | cons => exact ⟨_, _, rfl⟩
  have width : (if (Option.some w).getD 0 = 0 then settings.indexWidth
      else (Option.some w).getD settings.indexWidth) = w := if_neg pos.ne'
  simp only [commonDivisor, divisorFuel, divisorWithin, divisorStep, Traced.outcome_bind,
    Traced.outcome_lift, (AllBits.cons.mp typed).1.width, ok_bind, width,
    searchTermsOfList_factors _ _ made, sayRow_ok settings _ typed.texts]

/-- The common divisor of integers times unknowns is the greatest common divisor of the integers, as words,
times the unknowns that all products other than zero have. It hangs neither on the signs nor on the
order. -/
theorem commonDivisor_factors (settings : Settings) (wide : 2 ≤ w) (some : ms ≠ [])
    (named : ∀ m ∈ ms, m.Named) :
    ∃ es, ms.mapM (Factors.product settings.indexWidth w) = .ok es ∧
      ((∀ e ∈ es, e.isZero = true) → (commonDivisor settings es).outcome = .ok (const 0 w)) ∧
      (Tried w ms → ∃ g, (common w ms).product settings.indexWidth w = .ok g ∧
        (commonDivisor settings es).outcome = .ok g ∧
        ∀ ms', Tried w ms' → (ms'.map (unsigned w)).Perm (ms.map (unsigned w)) →
          ∃ es', ms'.mapM (Factors.product settings.indexWidth w) = .ok es' ∧
            (commonDivisor settings es').outcome = .ok g) := by
  have pos : 0 < w := by omega
  obtain ⟨es, run, made⟩ := Factors.products_made settings.indexWidth wide named
  refine ⟨es, run, fun zeros => ?_, fun tried => ?_⟩
  · have none : nonzero w ms = [] := by
      rcases Factors.first_term made with ⟨none, -⟩ | ⟨m, ms', e, es', -, left, term, -⟩
      · exact none
      · have mem : e ∈ es := (List.dropWhile_sublist _).subset (left ▸ List.mem_cons_self)
        exact absurd (zeros e mem) (by simp [term.isZero])
    have tried : Tried w ms := by simp [Tried, none]
    rw [commonDivisor_made settings wide some tried made, Factors.common_product_zero _ pos none]
  obtain ⟨g, join, -⟩ := (common w ms).product_spec settings.indexWidth wide (Factors.common_named named)
  refine ⟨g, join, ?_, fun ms' tried' perm => ?_⟩
  · rw [commonDivisor_made settings wide some tried made, join]
  have same (p) := perm.mem_iff (a := p)
  have some' : ms' ≠ [] := by
    rintro rfl
    exact some (by simpa using perm.symm)
  have named' : ∀ m ∈ ms', m.Named := by
    intro m hm s hs
    obtain ⟨n, hn, eq⟩ := List.mem_map.mp ((same _).mp (List.mem_map_of_mem hm))
    have symbols : n.symbols.Perm m.symbols := Multiset.coe_eq_coe.mp (congrArg Prod.snd eq)
    exact named n hn s (symbols.mem_iff.mpr hs)
  obtain ⟨es', run', made'⟩ := Factors.products_made settings.indexWidth wide named'
  refine ⟨es', run', ?_⟩
  obtain ⟨number, symbols⟩ := Factors.common_congr same
  rw [commonDivisor_made settings wide some' tried' made', ← join]
  exact Factors.product_congr _ wide (Factors.common_named named') number symbols

/-- Three products of 8 bits: zero, the least word, and one that wraps to 96. -/
def wrapped : List Factors :=
  [⟨256, [rowCount]⟩, ⟨128, [columnCount, rowCount, columnCount]⟩,
    ⟨-160, [columnCount, columnCount, columnCount, rowCount]⟩]

private theorem tried_wrapped : Tried 8 wrapped := by
  intro m hm
  obtain rfl : m = ⟨128, [columnCount, rowCount, columnCount]⟩ := by
    have first : (nonzero 8 wrapped).head? = some ⟨128, [columnCount, rowCount, columnCount]⟩ := by decide
    exact Option.some.inj (hm.symm.trans first)
  rw [Number.pastLimit_eq_nil (by decide +kernel)]
  exact Nat.zero_le 1

theorem commonDivisor_factors_wrapped : (2 : Int) ≤ 8 ∧ wrapped ≠ [] ∧ (∀ m ∈ wrapped, m.Named) ∧
    Tried 8 wrapped ∧ common 8 wrapped = ⟨32, [columnCount, rowCount, columnCount]⟩ ∧
    ∃ es, wrapped.mapM (Factors.product Settings.default.indexWidth 8) = .ok es ∧
      ((∀ e ∈ es, e.isZero = true) → (commonDivisor .default es).outcome = .ok (const 0 8)) ∧
      (Tried 8 wrapped → ∃ g, (common 8 wrapped).product Settings.default.indexWidth 8 = .ok g ∧
        (commonDivisor .default es).outcome = .ok g ∧
        ∀ ms', Tried 8 ms' → (ms'.map (unsigned 8)).Perm (wrapped.map (unsigned 8)) →
          ∃ es', ms'.mapM (Factors.product Settings.default.indexWidth 8) = .ok es' ∧
            (commonDivisor .default es').outcome = .ok g) := by
  have named : ∀ m ∈ wrapped, m.Named := by unfold Factors.Named; decide +kernel
  exact ⟨by decide, by decide, named, tried_wrapped, by decide +kernel,
    commonDivisor_factors .default (by decide) (by decide) named⟩

end ShapeRecovery.Expr
