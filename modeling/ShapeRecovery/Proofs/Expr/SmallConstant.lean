import ShapeRecovery.Proofs.Expr.Matching

namespace ShapeRecovery.Expr

variable {w : Int}

/-- An integer of the signed range of `w` bits other than its least one, so that its negation is in
the range too. -/
def Small (w v : Int) : Prop :=
  v.natAbs < Word.modulus (w - 1)

theorem Small.of_le {u v : Int} (small : Small w v) (le : u.natAbs ≤ v.natAbs) : Small w u :=
  le.trans_lt small

theorem Small.inRange {v : Int} (small : Small w v) : Word.InRange v w := by
  unfold Small at small
  constructor <;> omega

theorem Small.hasBits {v : Int} (small : Small w v) (pos : 0 < w) : HasBits (const v w) w :=
  .const pos small.inRange

theorem ofInt_small {v : Int} (pos : 0 < w) (small : Small w v) : ofInt v w = .ok (const v w) := by
  rw [ofInt_eq pos, Word.bmod_of_inRange pos small.inRange]

theorem small_zero : Small w 0 :=
  Word.modulus_pos (w - 1)

/-- Where any constant but zero is small, one is. -/
theorem Small.one {v : Int} (small : Small w v) (nonzero : v ≠ 0) : Small w 1 :=
  small.of_le (Int.natAbs_pos.mpr nonzero)

theorem small_one (wide : 2 ≤ w) : Small w 1 := by
  have half : (w - 1).toNat ≠ 0 := by omega
  exact Nat.one_lt_two_pow half

theorem one_small (pos : 0 < w) (unit : Small w 1) : one w = .ok (const 1 w) :=
  ofInt_small pos unit

/-- Constants are divided toward zero; only the quotient of the least word by minus one wraps. -/
theorem quotRem_constants (iw : Int) {n d : Int} (pos : 0 < w) (hn : Word.InRange n w)
    (nonzero : d ≠ 0) : quotRem iw (const n w) (const d w) =
      .ok (const ((n.tdiv d).bmod (Word.modulus w)) w, const (n.tmod d) w) := by
  simp only [quotRem, divideBy, divideByAtom, commonWidth, width, immediateDivision?, ok_bind,
    pure_eq_ok, one_eq pos, zero_eq pos]
  by_cases same : n = d
  · subst same
    simp [Int.tdiv_self nonzero, Int.tmod_self]
  by_cases nought : n = 0
  · subst nought
    simp [isZero, Ne.symm nonzero]
  by_cases whole : d = 1
  · subst whole
    simp [isZero, isOne, nought, same, Word.bmod_of_inRange pos hn]
  · simp [isZero, isOne, same, nought, whole, nonzero, Word.quotRem, ofInt_eq pos,
      Word.bmod_of_inRange pos (Word.inRange_tmod hn d)]

theorem quotRem_const (iw : Int) {n d : Int} (pos : 0 < w) (hn : Small w n) (nonzero : d ≠ 0) :
    quotRem iw (const n w) (const d w) = .ok (const (n.tdiv d) w, const (n.tmod d) w) := by
  have quotient : Small w (n.tdiv d) := hn.of_le (Int.natAbs_tdiv_le_natAbs n d)
  rw [quotRem_constants iw pos hn.inRange nonzero, Word.bmod_of_inRange pos quotient.inRange]

/-- The constants of these values. -/
def consts (w : Int) (vs : List Int) : List Expr :=
  vs.map fun v => const v w

theorem AllBits.consts {vs : List Int} (pos : 0 < w) (small : ∀ v ∈ vs, Small w v) :
    AllBits (consts w vs) w :=
  List.forall_mem_map.mpr fun v hv => (small v hv).hasBits pos

private theorem flatten_consts (op : Nary) (vs : List Int) :
    flatten op (consts w vs) = consts w vs := by
  refine flatten_opened fun e he => ?_
  obtain ⟨v, -, rfl⟩ := List.mem_map.mp he
  simp [naryOp?]

private theorem constantFactor_consts (pos : 0 < w) (c : Int) (vs : List Int) :
    constantFactor w (c.bmod (Word.modulus w)) (consts w vs) =
      .ok ((c * vs.prod).bmod (Word.modulus w)) := by
  induction vs generalizing c with
  | nil => simp [consts, constantFactor]
  | cons v vs ih =>
    have rest := ih (c * v)
    simp only [consts, List.map_cons, constantFactor, Word.signed_eq pos, ok_bind,
      Int.bmod_mul_bmod] at rest ⊢
    rw [rest, List.prod_cons, mul_assoc]

/-- A product of constants that does not leave the range is the constant of the product. -/
theorem productOf_consts (iw : Int) {vs : List Int} (pos : 0 < w) (unit : Small w 1)
    (small : ∀ v ∈ vs, Small w v) (total : Small w vs.prod) (some : vs ≠ []) :
    productOf iw (consts w vs) = .ok (const vs.prod w) := by
  have typed := AllBits.consts pos small
  have some' : consts w vs ≠ [] := by simpa [consts] using some
  have factor : constantFactor w 1 (consts w vs) = .ok vs.prod := by
    have run := constantFactor_consts pos 1 vs
    rwa [Word.bmod_of_inRange pos unit.inRange, one_mul,
      Word.bmod_of_inRange pos total.inRange] at run
  have others : ((consts w vs).filter fun o => !o.isConst) = [] := by
    simp [consts, isConst]
  have empty : (consts w vs).isEmpty = false := by simpa using some'
  simp only [productOf, fuelFor, productWithin, productStep, flatten_consts,
    typed.no_uncomputable, commonWidth_eq iw typed some', factor, others, empty, ok_bind]
  by_cases nought : vs.prod = 0
  · simp [nought, zero_eq pos]
  · simp [nought, ofInt_small pos total]

/-- A divisor times the quotient is the dividend. -/
theorem productOf_quotient (iw : Int) (wide : 2 ≤ w) {c p : Nat} (small : Small w c)
    (divisor : Small w p) (divides : p ∣ c) :
    productOf iw [const p w, const (c / p : Nat) w] = .ok (const c w) := by
  have size : Small w (c / p : Nat) := small.of_le (Nat.div_le_self _ _)
  have whole := Nat.mul_div_cancel' divides
  generalize c / p = q at whole size
  have total : [(p : Int), (q : Int)].prod = c := by
    rw [← whole]
    simp
  have run := productOf_consts iw (show 0 < w by omega) (small_one wide)
    (show ∀ v ∈ [(p : Int), (q : Int)], Small w v by simpa using ⟨divisor, size⟩) (total ▸ small)
    (by simp)
  rwa [total] at run

/-- The greatest common divisor of integers, zero if all of them are zero. -/
def gcdAll : List Int → Nat
  | [] => 0
  | v :: vs => Nat.gcd v.natAbs (gcdAll vs)

theorem gcdAll_append (us vs : List Int) : gcdAll (us ++ vs) = Nat.gcd (gcdAll us) (gcdAll vs) := by
  induction us with
  | nil => simp [gcdAll]
  | cons u us ih => simp only [List.cons_append, gcdAll, ih, Nat.gcd_assoc]

theorem dvd_gcdAll {g : Nat} {vs : List Int} : g ∣ gcdAll vs ↔ ∀ v ∈ vs, (g : Int) ∣ v := by
  induction vs with
  | nil => simp [gcdAll]
  | cons v vs ih => simp [gcdAll, Nat.dvd_gcd_iff, ih, Int.natCast_dvd]

/-- The greatest common divisor does not hang on the order of the constants. -/
theorem gcdAll_congr {us vs : List Int} (same : ∀ v, v ∈ us ↔ v ∈ vs) : gcdAll us = gcdAll vs := by
  refine Nat.dvd_antisymm (dvd_gcdAll.mpr fun v hv => ?_) (dvd_gcdAll.mpr fun v hv => ?_)
  · exact dvd_gcdAll.mp dvd_rfl v ((same v).mpr hv)
  · exact dvd_gcdAll.mp dvd_rfl v ((same v).mp hv)

/-- The greatest common divisor is no greater than the integers. -/
theorem gcdAll_lt {vs : List Int} {bound : Nat} (some : vs ≠ [])
    (bounded : ∀ v ∈ vs, v.natAbs < bound) : gcdAll vs < bound := by
  have divides := dvd_gcdAll.mp (dvd_refl (gcdAll vs))
  by_cases zeros : ∀ v ∈ vs, v = 0
  · have none : gcdAll vs = 0 := by
      refine Nat.eq_zero_of_zero_dvd (dvd_gcdAll.mpr fun v hv => ?_)
      simp [zeros v hv]
    obtain ⟨v, hv⟩ := List.exists_mem_of_ne_nil vs some
    have := bounded v hv
    omega
  · push Not at zeros
    obtain ⟨v, hv, nonzero⟩ := zeros
    have le := Nat.le_of_dvd (Int.natAbs_pos.mpr nonzero) (Int.natCast_dvd.mp (divides v hv))
    exact le.trans_lt (bounded v hv)

/-- The candidates that divide `c`, each taken out of it before the next one is tried. -/
def matched : List Int → Int → List Int
  | [], _ => []
  | k :: ks, c => if c.tmod k = 0 then k :: matched ks (c.tdiv k) else matched ks c

private theorem matched_sublist (ks : List Int) (c : Int) : (matched ks c).Sublist ks := by
  induction ks generalizing c with
  | nil => exact List.Sublist.refl _
  | cons k ks ih =>
    unfold matched
    split
    · exact (ih _).cons_cons k
    · exact (ih _).cons k

/-- A candidate for a common divisor: the sign, one, or a prime number. -/
def Seed (k : Int) : Prop :=
  k = -1 ∨ 0 < k ∧ (k.natAbs = 1 ∨ k.natAbs.Prime)

theorem Seed.ne_zero {k : Int} (seed : Seed k) : k ≠ 0 := by
  rintro rfl
  simp [Seed] at seed

theorem gcd_mul_of_not_dvd {p : Nat} (prime : p.Prime) (n : Nat) {m : Nat} (other : ¬ p ∣ m) :
    Nat.gcd (p * n) m = Nat.gcd n m :=
  Nat.Coprime.gcd_mul_left_cancel n ((Nat.Prime.coprime_iff_not_dvd prime).mpr other)

/-- Since candidates cannot be broken up, what divides `c` of their product is all that they have in
common with `c`. -/
private theorem prod_matched {ks : List Int} (seeds : ∀ k ∈ ks, Seed k) (c : Int) :
    (matched ks c).prod.natAbs = Nat.gcd ks.prod.natAbs c.natAbs := by
  induction ks generalizing c with
  | nil => simp [matched]
  | cons k ks ih =>
    have ih := ih fun j hj => seeds j (by simp [hj])
    have seed := seeds k (by simp)
    rw [List.prod_cons, Int.natAbs_mul]
    unfold matched
    split
    · next divides =>
      have whole : c.natAbs = k.natAbs * (c.tdiv k).natAbs := by
        rw [← Int.natAbs_mul, Int.mul_tdiv_cancel' (Int.dvd_of_tmod_eq_zero divides)]
      rw [List.prod_cons, Int.natAbs_mul, ih, whole, Nat.gcd_mul_left]
    · next other =>
      have apart : ¬ k.natAbs ∣ c.natAbs := fun divides =>
        other (Int.tmod_eq_zero_of_dvd (Int.natAbs_dvd_natAbs.mp divides))
      have prime : k.natAbs.Prime := by
        rcases seed with rfl | ⟨-, one | prime⟩
        · simp at apart
        · simp [one] at apart
        · exact prime
      rw [ih, gcd_mul_of_not_dvd prime _ apart]

private theorem matching_consts (iw : Int) (pos : 0 < w) {ks : List Int} {c : Int}
    (small : ∀ k ∈ ks, Small w k) (nonzero : ∀ k ∈ ks, k ≠ 0) (hc : Small w c) :
    matching iw (consts w ks) (const c w) = .ok (consts w (matched ks c)) := by
  induction ks generalizing c with
  | nil => rfl
  | cons k ks ih =>
    have ih {d : Int} := @ih d (fun j hj => small j (by simp [hj])) fun j hj => nonzero j (by simp [hj])
    have quotient : Small w (c.tdiv k) := hc.of_le (Int.natAbs_tdiv_le_natAbs c k)
    simp only [consts, List.map_cons, matching, ok_bind,
      quotRem_const iw pos hc (nonzero k (by simp))] at ih ⊢
    by_cases divides : c.tmod k = 0
    · simp [isZero, divides, matched, ih quotient]
    · simp [isZero, divides, matched, ih hc]

/-- The candidates that match all constants multiply to what these have in common with the product
of all candidates. -/
private theorem matchingAll_consts (iw : Int) (pos : 0 < w) {cs ks : List Int}
    (small : ∀ k ∈ ks, Small w k) (seeds : ∀ k ∈ ks, Seed k) (hcs : ∀ c ∈ cs, Small w c) :
    ∃ kept, matchingAll iw (consts w cs) (consts w ks) = .ok (consts w kept) ∧ kept.Sublist ks ∧
      kept.prod.natAbs = Nat.gcd ks.prod.natAbs (gcdAll cs) := by
  induction cs generalizing ks with
  | nil => exact ⟨ks, rfl, List.Sublist.refl _, by simp [gcdAll]⟩
  | cons c cs ih =>
    have hcs' : ∀ d ∈ cs, Small w d := fun d hd => hcs d (by simp [hd])
    by_cases nought : c = 0
    · subst nought
      obtain ⟨kept, hk, sub, total⟩ := ih small seeds hcs'
      refine ⟨kept, ?_, sub, by simpa [gcdAll] using total⟩
      simpa [consts, matchingAll, isZero] using hk
    · have sub := matched_sublist ks c
      have run := matching_consts iw pos small (fun k hk => (seeds k hk).ne_zero) (hcs c (by simp))
      obtain ⟨kept, hk, sub', total⟩ := ih (fun k hk => small k (sub.subset hk))
        (fun k hk => seeds k (sub.subset hk)) hcs'
      refine ⟨kept, ?_, sub'.trans sub, ?_⟩
      · exact (matchingAll_cons iw (by simpa [isZero] using nought) run).trans hk
      · rw [total, prod_matched seeds, gcdAll, Nat.gcd_assoc]

/-- An integer whose factors are all found. -/
def Searchable (w v : Int) : Prop :=
  Small w v ∧ v.natAbs < (Number.trialLimit + 1) * (Number.trialLimit + 1)

private theorem mapM_ofInt_small (pos : 0 < w) {ns : List Nat} (small : ∀ n ∈ ns, Small w (n : Int)) :
    (ns.mapM fun n : Nat => ofInt n w) = .ok (consts w (ns.map Int.ofNat)) := by
  rw [mapM_ok fun n hn => ofInt_small pos (small n hn)]
  simp [consts]

/-- The candidates of a constant are seeds, which multiply to it. -/
theorem candidates_const (settings : Settings) (pos : 0 < w) {v : Int} (search : Searchable w v)
    (nonzero : v ≠ 0) :
    ∃ ks, (candidates settings [const v w]).outcome = .ok (consts w ks) ∧
      (∀ k ∈ ks, Seed k ∧ Small w k) ∧ ks.prod.natAbs = v.natAbs := by
  obtain ⟨small, limit⟩ := search
  have unit := small.one nonzero
  have minus : Small w (-1) := unit
  obtain ⟨ns, hns, total⟩ := Number.factors_spec nonzero
  have primes := Number.factors_prime hns limit
  have light : ∀ n ∈ ns, Small w (n : Int) := fun n hn => small.of_le
    (Nat.le_of_dvd (Int.natAbs_pos.mpr nonzero) (total ▸ List.dvd_prod hn))
  obtain ⟨sign, hsign, signs, single⟩ : ∃ sign, signFactor v w = .ok (consts w sign) ∧
      (∀ k ∈ sign, k = -1) ∧ sign.prod.natAbs = 1 := by
    by_cases negative : v < 0
    · exact ⟨[-1], by simp [signFactor, negative, ofInt_small pos minus, consts], by simp, by simp⟩
    · exact ⟨[], by simp [signFactor, negative, consts], by simp, by simp⟩
  have signed : ∀ k ∈ sign, Seed k ∧ Small w k := by
    intro k hk
    rw [signs k hk]
    exact ⟨.inl rfl, minus⟩
  have whole {x : List Int} (run : (sizeFactors settings v w (consts w sign)).outcome =
      .ok (consts w (sign ++ x))) :
      (candidates settings [const v w]).outcome = .ok (consts w (sign ++ x)) := by
    simp [candidates, factorCandidates, isConst, constantDivisors, nonzero, hsign, run]
  by_cases one : v.natAbs = 1
  · refine ⟨sign ++ [1], whole ?_, ?_, by simp [single, one]⟩
    · simp only [sizeFactors, one, if_true, one_small pos unit, Traced.outcome_bind,
        Traced.outcome_lift, ok_bind, Traced.outcome_pure]
      simp [consts]
    · intro k hk
      rcases List.mem_append.mp hk with hk | hk
      · exact signed k hk
      · rw [List.mem_singleton.mp hk]
        exact ⟨.inr ⟨by decide, .inl rfl⟩, unit⟩
  · refine ⟨sign ++ ns.map Int.ofNat, whole ?_, ?_, ?_⟩
    · have typed : AllBits (consts w sign ++ consts w (ns.map Int.ofNat)) w := by
        refine AllBits.append.mpr ⟨AllBits.consts pos fun k hk => (signed k hk).2, ?_⟩
        exact AllBits.consts pos (List.forall_mem_map.mpr light)
      simp only [sizeFactors, one, if_false, hns, mapM_ofInt_small pos light, ok_bind,
        Traced.outcome_bind, Traced.outcome_lift, sayRow_ok settings _ typed.texts, Traced.outcome_pure]
      simp [consts]
    · intro k hk
      rcases List.mem_append.mp hk with hk | hk
      · exact signed k hk
      · obtain ⟨n, hn, rfl⟩ := List.mem_map.mp hk
        have prime := primes n hn
        exact ⟨.inr ⟨by simpa using prime.pos, .inr (by simpa using prime)⟩, light n hn⟩
    · have size : (ns.map Int.ofNat).prod = (ns.prod : Int) :=
        (map_list_prod (Nat.castRingHom Int) ns).symm
      rw [List.prod_append, Int.natAbs_mul, single, size, Int.natAbs_natCast, total, one_mul]

/-- Without the signs, seeds multiply to the size of their product. -/
theorem prod_seeds {ks : List Int} (seeds : ∀ k ∈ ks, Seed k) :
    (ks.filter fun k => !(k == -1)).prod = ks.prod.natAbs := by
  induction ks with
  | nil => rfl
  | cons k ks ih =>
    have ih := ih fun j hj => seeds j (by simp [hj])
    rw [List.prod_cons, Int.natAbs_mul]
    rcases seeds k (by simp) with rfl | ⟨positive, -⟩
    · simpa using ih
    · have other : k ≠ -1 := by omega
      have size : ((k.natAbs : Nat) : Int) = k := Int.natAbs_of_nonneg positive.le
      rw [List.filter_cons_of_pos (by simpa using other), List.prod_cons, ih, Nat.cast_mul, size]

private theorem joinCandidates_consts (iw : Int) (pos : 0 < w) (unit : Small w 1) {ks : List Int}
    (seeds : ∀ k ∈ ks, Seed k ∧ Small w k) (total : Small w ks.prod) :
    joinCandidates iw w ((consts w ks).filter fun d => !isMinusOne d) =
      .ok (const ks.prod.natAbs w) := by
  have kept : ((consts w ks).filter fun d => !isMinusOne d) =
      consts w (ks.filter fun k => !(k == -1)) := by
    simp [consts, List.filter_map, Function.comp_def, isMinusOne]
  have size := prod_seeds fun k hk => (seeds k hk).1
  have small : ∀ k ∈ ks.filter fun k => !(k == -1), Small w k :=
    fun k hk => (seeds k (List.mem_of_mem_filter hk)).2
  have total' : Small w (ks.filter fun k => !(k == -1)).prod := by
    rw [size]
    exact total.of_le (Int.natAbs_natCast _).le
  rw [kept, ← size]
  generalize (ks.filter fun k => !(k == -1)) = found at small total'
  match found with
  | [] => exact one_small pos unit
  | [d] => simp [consts, joinCandidates]
  | d :: d' :: ds => simpa [consts, joinCandidates] using productOf_consts iw pos unit small total'

/-- The divisor of constants is their greatest common one. -/
theorem divisorOfTerms_consts (settings : Settings) (pos : 0 < w) {cs : List Int} (some : cs ≠ [])
    (search : ∀ c ∈ cs, Searchable w c) :
    (divisorOfTerms settings w (consts w cs)).outcome = .ok (const (gcdAll cs) w) := by
  have drop : ∀ vs : List Int,
      (consts w vs).dropWhile isZero = consts w (vs.dropWhile fun v => v == 0) := by
    intro vs
    induction vs with
    | nil => rfl
    | cons v vs ih =>
      by_cases nought : v = 0
      · simpa [consts, isZero, nought] using ih
      · simp [consts, isZero, nought]
  have same : ∀ vs : List Int, gcdAll (vs.dropWhile fun v => v == 0) = gcdAll vs := by
    intro vs
    induction vs with
    | nil => rfl
    | cons v vs ih =>
      by_cases nought : v = 0
      · simpa [gcdAll, nought] using ih
      · simp [nought]
  have part : ∀ c ∈ cs.dropWhile fun v => v == 0, Searchable w c :=
    fun c hc => search c ((List.dropWhile_sublist _).subset hc)
  have head := List.head?_dropWhile_not (fun v : Int => v == 0) cs
  have drop := drop cs
  rw [← same cs]
  generalize (cs.dropWhile fun v => v == 0) = left at part head drop
  cases left with
  | nil =>
    rw [divisorOfTerms_zeros settings w (by simpa [consts] using some) drop, zero_eq pos]
    rfl
  | cons c left =>
    have nonzero : c ≠ 0 := by simpa using head
    obtain ⟨ks, hks, seeds, total⟩ := candidates_const settings pos (part c (by simp)) nonzero
    have others : ∀ d ∈ left, Small w d := fun d hd => (part d (by simp [hd])).1
    obtain ⟨kept, hkept, sub, common⟩ := matchingAll_consts settings.indexWidth pos
      (fun k hk => (seeds k hk).2) (fun k hk => (seeds k hk).1) others
    have size : kept.prod.natAbs = gcdAll (c :: left) := by rw [common, total, gcdAll]
    have small := (part c (by simp)).1
    have total' : Small w kept.prod := small.of_le (by
      rw [size]
      exact Nat.gcd_le_left _ (Int.natAbs_pos.mpr nonzero))
    have join := joinCandidates_consts settings.indexWidth pos (small.one nonzero)
      (fun k hk => seeds k (sub.subset hk)) total'
    rw [size] at join
    rw [divisorOfTerms_first settings w drop]
    simp only [consts, factorsOf] at hks hkept join ⊢
    simp only [hks, hkept, join, ok_bind]

end ShapeRecovery.Expr
