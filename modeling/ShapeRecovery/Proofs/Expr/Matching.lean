import Mathlib.Algebra.BigOperators.Ring.Finset
import ShapeRecovery.Expr.CommonDivisor
import ShapeRecovery.Proofs.Expr.Division
import ShapeRecovery.Proofs.Number.Factorization

namespace ShapeRecovery.Expr

variable {w v : Int} {ds terms : List Expr}

theorem matchingAll_nil (iw : Int) (terms : List Expr) : matchingAll iw terms [] = .ok [] := by
  induction terms with
  | nil => rfl
  | cons t terms ih =>
    unfold matchingAll
    split
    · simpa using ih
    · simp [matching]

theorem matchingAll_cons (iw : Int) {t : Expr} {terms ds kept : List Expr}
    (nonzero : t.isZero = false) (matched : matching iw ds t = .ok kept) :
    matchingAll iw (t :: terms) ds = matchingAll iw terms kept := by
  rw [matchingAll, nonzero, matched]
  cases kept with
  | nil => simp [matchingAll_nil]
  | cons d kept => simp

/-- The candidates that divide a term are some of the candidates. -/
theorem matching_sublist (iw : Int) {term : Expr} (typed : AllBits ds v) (hterm : HasBits term w) :
    ∃ kept, matching iw ds term = .ok kept ∧ kept.Sublist ds := by
  induction ds generalizing term with
  | nil => exact ⟨[], rfl, List.Sublist.refl _⟩
  | cons d ds ih =>
    obtain ⟨hd, hds⟩ := AllBits.cons.mp typed
    obtain ⟨⟨q, r⟩, division, divides⟩ := divideBy_spec iw hd hterm
    simp only [matching, quotRem, division, ok_bind]
    split
    · obtain ⟨kept, hk, sub⟩ := ih hds divides.quotient
      exact ⟨d :: kept, by simp only [hk, ok_bind]; rfl, sub.cons_cons d⟩
    · obtain ⟨kept, hk, sub⟩ := ih hds hterm
      exact ⟨kept, hk, sub.cons d⟩

theorem matchingAll_sublist (iw : Int) (typed : AllBits ds v) (hterms : ∀ t ∈ terms, ∃ w, HasBits t w) :
    ∃ kept, matchingAll iw terms ds = .ok kept ∧ kept.Sublist ds := by
  induction terms generalizing ds with
  | nil => exact ⟨ds, rfl, List.Sublist.refl _⟩
  | cons t terms ih =>
    obtain ⟨⟨w, ht⟩, hrest⟩ := List.forall_mem_cons.mp hterms
    cases nought : t.isZero with
    | true =>
      obtain ⟨kept, hk, sub⟩ := ih typed hrest
      exact ⟨kept, by simp only [matchingAll, nought, if_true, hk], sub⟩
    | false =>
      obtain ⟨matched, hm, msub⟩ := matching_sublist iw typed ht
      have mtyped : AllBits matched v := fun d hd => typed d (msub.subset hd)
      obtain ⟨kept, hk, sub⟩ := ih mtyped hrest
      exact ⟨kept, (matchingAll_cons iw nought hm).trans hk, sub.trans msub⟩

/-- Numbers as constants multiply to their product. -/
private theorem mapM_ofInt (pos : 0 < w) (ns : List Nat) :
    ∃ es, (ns.mapM fun n : Nat => ofInt n w) = .ok es ∧ AllBits es w ∧
      (∀ e ∈ es, e.isConst = true) ∧
      ∀ ρ, (es.map (value w ρ)).prod = ((ns.prod : Nat) : ZMod (Word.modulus w)) := by
  refine ⟨_, mapM_ok fun n _ => ofInt_eq pos n, ?_, ?_, fun ρ => ?_⟩
  · exact List.forall_mem_map.mpr fun n _ => hasBits_const_bmod pos n
  · exact List.forall_mem_map.mpr fun n _ => rfl
  · simp [Function.comp_def]

/-- Expressions with texts can be listed. -/
theorem sayRow_ok (settings : Settings) (label : String) {es : List Expr}
    (texts : ∀ e ∈ es, ∃ t, e.text = .ok t) : (sayRow settings label es).outcome = .ok () := by
  obtain ⟨ts, hts⟩ := mapM_total texts
  cases trace : settings.trace with
  | false => simp [sayRow, trace]
  | true => simp [sayRow, trace, textRow, textList_eq_mapM, hts]

private theorem signFactor_spec (pos : 0 < w) (v : Int) :
    ∃ sign, signFactor v w = .ok sign ∧ AllBits sign w ∧ (∀ e ∈ sign, e.isConst = true) ∧
      ∀ ρ, (sign.map (value w ρ)).prod * (v.natAbs : ZMod (Word.modulus w)) = v := by
  by_cases negative : v < 0
  · refine ⟨[const ((-1 : Int).bmod (Word.modulus w)) w], ?_, ?_, by simp [isConst], fun ρ => ?_⟩
    · simp [signFactor, negative, ofInt_eq pos]
    · simpa using hasBits_const_bmod pos (-1)
    · have size : ((v.natAbs : Nat) : Int) = -v := Int.ofNat_natAbs_of_nonpos negative.le
      have cast : ((v.natAbs : Nat) : ZMod (Word.modulus w)) = ((-v : Int) : ZMod _) := by
        rw [← size, Int.cast_natCast]
      simp [cast]
  · have size : ((v.natAbs : Nat) : Int) = v := Int.natAbs_of_nonneg (not_lt.mp negative)
    refine ⟨[], by simp [signFactor, negative], AllBits.nil, by simp, fun ρ => ?_⟩
    rw [List.map_nil, List.prod_nil, one_mul, ← Int.cast_natCast, size]

/-- The candidates of a constant other than zero are constants, and multiply to it. -/
theorem constantDivisors_spec (settings : Settings) {v : Int} (pos : 0 < w) (nonzero : v ≠ 0) :
    ∃ ds, (constantDivisors settings (const v w)).outcome = .ok ds ∧ AllBits ds w ∧
      (∀ d ∈ ds, d.isConst = true) ∧ ∀ ρ, (ds.map (value w ρ)).prod = (v : ZMod (Word.modulus w)) := by
  obtain ⟨ns, hns, total⟩ := Number.factors_spec nonzero
  obtain ⟨parts, hparts, ptyped, pconst, pprod⟩ := @mapM_ofInt w pos ns
  obtain ⟨sign, hsign, styped, sconst, sprod⟩ := @signFactor_spec w pos v
  have head : (constantDivisors settings (const v w)).outcome =
      (sizeFactors settings v w sign).outcome := by
    simp [constantDivisors, nonzero, hsign]
  rw [head]
  by_cases unit : v.natAbs = 1
  · refine ⟨sign ++ [const ((1 : Int).bmod (Word.modulus w)) w], ?_, ?_, ?_, fun ρ => ?_⟩
    · simp only [sizeFactors, unit, if_true, one_eq pos, Traced.outcome_bind, Traced.outcome_lift,
        ok_bind, Traced.outcome_pure]
    · simp [styped, hasBits_const_bmod pos]
    · exact List.forall_mem_append.mpr ⟨sconst, by simp [isConst]⟩
    · simpa [unit] using sprod ρ
  · have constants := List.forall_mem_append.mpr ⟨sconst, pconst⟩
    refine ⟨sign ++ parts, ?_, by simp [styped, ptyped], constants, fun ρ => ?_⟩
    · simp only [sizeFactors, unit, if_false, hns, hparts, Traced.outcome_bind, Traced.outcome_lift,
        sayRow_ok settings _ (AllBits.append.mpr ⟨styped, ptyped⟩).texts, ok_bind, Traced.outcome_pure]
    · rw [List.map_append, List.prod_append, pprod ρ, total]
      exact sprod ρ

theorem factorsOf_spec {e : Expr} (typed : HasBits e w) :
    AllBits (factorsOf e) w ∧ ∀ ρ, ((factorsOf e).map (value w ρ)).prod = value w ρ e := by
  have single : AllBits [e] w ∧ ∀ ρ, ([e].map (value w ρ)).prod = value w ρ e :=
    ⟨by simpa using typed, fun ρ => by simp⟩
  cases e with
  | nary op es =>
    cases op with
    | product => exact ⟨(HasBits.nary_iff.mp typed).2, fun ρ => (value_product w ρ es).symm⟩
    | _ => exact single
  | _ => exact single

section divisorOfTerms

variable {terms rest : List Expr} {first : Expr}

theorem divisorOfTerms_zeros (settings : Settings) (w : Int) (some : terms ≠ [])
    (left : terms.dropWhile isZero = []) : (divisorOfTerms settings w terms).outcome = zero w := by
  unfold divisorOfTerms
  split
  · exact absurd rfl some
  · rw [left, Traced.outcome_lift]

/-- The first term that is not zero offers the candidates. -/
theorem divisorOfTerms_first (settings : Settings) (w : Int)
    (left : terms.dropWhile isZero = first :: rest) :
    (divisorOfTerms settings w terms).outcome = (do
      let seeds ← (candidates settings (factorsOf first)).outcome
      let kept ← matchingAll settings.indexWidth rest seeds
      joinCandidates settings.indexWidth w (kept.filter fun d => !isMinusOne d)) := by
  unfold divisorOfTerms
  split
  · cases left
  · simp only [left, Traced.outcome_bind, Traced.outcome_lift]

end divisorOfTerms

end ShapeRecovery.Expr
