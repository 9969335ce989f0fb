import ShapeRecovery.Proofs.Expr.SettledSteps
import ShapeRecovery.Proofs.Expr.Substitution

namespace ShapeRecovery.Expr

variable {addFits mulFits : Check} {es : List Expr} {a b e r : Expr} {kind : CastKind} {signed : Bool}
  {v w iw bits : Int} {l : Loop}

section constructors

private theorem settled_sumOf (settled : ∀ e ∈ es, Settled e) (fits : sumFits iw es = true)
    (run : sumOf iw es = .ok r) : Settled r :=
  (within_settled iw _).1 es r settled fits run

private theorem settled_productOf (settled : ∀ e ∈ es, Settled e) (fits : productFits iw es = true)
    (run : productOf iw es = .ok r) : Settled r :=
  (within_settled iw _).2 es r settled fits run

theorem settled_unsignedQuotient (lhs : Settled a) (rhs : Settled b)
    (run : unsignedQuotient a b = .ok r) : Settled r := by
  rcases unsignedQuotient_cases run with ⟨none, -⟩ | ⟨-, rfl⟩ | ⟨-, -, v, w, made⟩ | rfl
  · exact absurd none (not_or.mpr ⟨lhs.ne_uncomputable, rhs.ne_uncomputable⟩)
  · exact lhs
  · exact settled_ofInt made
  · exact .quotient lhs rhs

theorem settled_maximum (filled : flatten (if signed then .signedMax else .unsignedMax) es ≠ [])
    (settled : ∀ e ∈ es, Settled e) (run : maximum signed iw es = .ok r) : Settled r := by
  simp only [maximum, no_uncomputable settled, Bool.false_eq_true, if_false] at run
  have flat := settled_flatten (if signed then .signedMax else .unsignedMax) settled
  have still : (if signed then Nary.signedMax else .unsignedMax) ≠ .sum ∧
      (if signed then Nary.signedMax else .unsignedMax) ≠ .product := by
    cases signed <;> decide
  have free (v : Int) : ¬ Trivial (if signed then .signedMax else .unsignedMax) v := by
    cases signed <;> exact not_false
  generalize (if signed then Nary.signedMax else .unsignedMax) = op at *
  have sortable {head : List Expr} (front : Front op head) :
      Sortable op (head ++ distinctOthers (flatten op es) []) := by
    refine front.sortable (fun e he => ?_) (absurd · still.1) (absurd · still.2)
    obtain ⟨mem, other⟩ : e ∈ flatten op es ∧ e.isConst = false := by
      simpa using mem_distinctOthers.mp he
    exact ⟨(flat e mem).1, other, (flat e mem).2⟩
  obtain ⟨w, -, run⟩ := bind_eq_ok.mp run
  obtain ⟨vs, hvs, run⟩ := bind_eq_ok.mp run
  split at run
  · have none : constantsOf (flatten op es) = [] :=
      List.length_eq_zero_iff.mp (mapM_eq_ok_iff.mp hvs).length_eq
    obtain ⟨e, he⟩ := List.exists_mem_of_ne_nil _ filled
    have mem : e ∈ distinctOthers (flatten op es) [] :=
      mem_distinctOthers.mpr (.inr ⟨he, isConst_of_constantsOf_nil none e he⟩)
    exact (sortable (front_nil op)).settled_ordered (List.ne_nil_of_mem mem) run
  · obtain ⟨c, hc, run⟩ := bind_eq_ok.mp run
    obtain ⟨u, -, made⟩ := bind_eq_ok.mp hc
    cases made
    have front : Front op [const u w] := front_singleton (free u)
    exact ((sortable front).perm List.perm_append_comm).settled_ordered (by simp) run

theorem settled_convert (settled : Settled e) (run : convert kind bits e = .ok r) : Settled r := by
  refine convert_induction settled (fun _ _ _ _ _ made => settled_ofInt made)
    (fun a _ whole => whole.operands a (by simp [Expr.operands])) (fun a here other apart _ =>
      .cast ?_ here) run
  cases a with
  | const => cases other
  | cast k a' b => exact fun same => apart a' b (same ▸ rfl)
  | uncomputable => exact absurd rfl here.ne_uncomputable
  | _ => trivial

end constructors

/-- The expressions of `w` bits that the constructors reach, where the checks hold of the operands of
every sum and product. Negations and differences are products and sums, and the product of nothing is
a constant. -/
inductive Built (iw : Int) (addFits mulFits : Check) : Expr → Int → Prop
  | const {v w : Int} {r : Expr} (pos : 0 < w) (run : ofInt v w = .ok r) : Built iw addFits mulFits r w
  | unknown (s : Symbol) {w : Int} (pos : 0 < w) : Built iw addFits mulFits (.unknown s w) w
  | inductionVariable {l : Loop} {w : Int} {r : Expr} (pos : 0 < w)
      (run : inductionVariable l w = .ok r) : Built iw addFits mulFits r w
  | sum {es : List Expr} {w : Int} {r : Expr} (some : es ≠ [])
      (parts : ∀ e ∈ es, Built iw addFits mulFits e w) (fits : addFits es = true)
      (run : sumOf iw es = .ok r) : Built iw addFits mulFits r w
  | product {es : List Expr} {w : Int} {r : Expr} (some : es ≠ [])
      (parts : ∀ e ∈ es, Built iw addFits mulFits e w) (fits : mulFits es = true)
      (run : productOf iw es = .ok r) : Built iw addFits mulFits r w
  | maximum {signed : Bool} {es : List Expr} {w : Int} {r : Expr} (some : es ≠ [])
      (parts : ∀ e ∈ es, Built iw addFits mulFits e w) (run : maximum signed iw es = .ok r) :
      Built iw addFits mulFits r w
  | quotient {a b : Expr} {w : Int} {r : Expr} (lhs : Built iw addFits mulFits a w)
      (rhs : Built iw addFits mulFits b w) (run : unsignedQuotient a b = .ok r) :
      Built iw addFits mulFits r w
  | cast {kind : CastKind} {e : Expr} {v w : Int} {r : Expr} (arg : Built iw addFits mulFits e v)
      (admits : Admits kind v w) (run : convert kind w e = .ok r) : Built iw addFits mulFits r w
  | recurrence {a b : Expr} {w : Int} (l : Loop) (start : Built iw addFits mulFits a w)
      (step : Built iw addFits mulFits b w) : Built iw addFits mulFits (recur a b l) w

namespace Built

theorem hasBits (built : Built iw addFits mulFits e w) : HasBits e w := by
  induction built with
  | const pos run =>
    cases (ofInt_eq pos _).symm.trans run
    exact hasBits_const_bmod pos _
  | unknown s pos => exact .unknown pos
  | inductionVariable pos run =>
    obtain ⟨a, ha, run⟩ := bind_eq_ok.mp run
    obtain ⟨b, hb, made⟩ := bind_eq_ok.mp run
    cases (ofInt_eq pos _).symm.trans ha
    cases (ofInt_eq pos _).symm.trans hb
    cases made
    exact hasBits_recur _ (hasBits_const_bmod pos _) (hasBits_const_bmod pos _)
  | sum some _ _ run ih =>
    obtain ⟨r, hr, same⟩ := sumOf_spec iw some ih
    cases hr.symm.trans run
    exact same.hasBits
  | product some _ _ run ih =>
    obtain ⟨r, hr, same⟩ := productOf_spec iw some ih
    cases hr.symm.trans run
    exact same.hasBits
  | @maximum signed es w r some _ run ih =>
    obtain ⟨r, hr, typed⟩ := (maximum_yields signed default iw (AllBits.operands ih) some).typed
    cases hr.symm.trans run
    exact typed
  | quotient _ _ run lhs rhs =>
    obtain ⟨r, hr, typed⟩ := unsignedQuotient_typed lhs rhs
    cases hr.symm.trans run
    exact typed
  | cast _ admits run ih =>
    obtain ⟨r, hr, typed⟩ := convert_typed ih admits
    cases hr.symm.trans run
    exact typed
  | recurrence l _ _ start step => exact hasBits_recur l start step

theorem settled (built : Built iw (sumFits iw) (productFits iw) e w) : Settled e := by
  induction built with
  | const pos run => exact settled_ofInt run
  | unknown s pos => exact .unknown s _
  | inductionVariable pos run =>
    obtain ⟨a, ha, run⟩ := bind_eq_ok.mp run
    obtain ⟨b, hb, made⟩ := bind_eq_ok.mp run
    cases made
    exact settled_recur (settled_ofInt ha) (settled_ofInt hb) _
  | sum _ _ fits run ih => exact settled_sumOf ih fits run
  | product _ _ fits run ih => exact settled_productOf ih fits run
  | maximum some parts run ih =>
    exact settled_maximum (flatten_ne_nil (fun e he => (parts e he).hasBits) some) ih run
  | quotient _ _ run lhs rhs => exact settled_unsignedQuotient lhs rhs run
  | cast _ _ run ih => exact settled_convert ih run
  | recurrence l _ _ start step => exact settled_recur start step l

theorem negation (built : Built iw addFits mulFits e w)
    (fits : ∀ k, ofInt (-1) w = .ok k → mulFits [k, e] = true) (run : negation iw e = .ok r) :
    Built iw addFits mulFits r w := by
  obtain ⟨k, hk, run⟩ := negation_run built.hasBits run
  have pos := built.hasBits.pos
  exact .product (by simp) (by simpa using ⟨.const pos hk, built⟩) (fits k hk) run

theorem difference (lhs : Built iw addFits mulFits a w) (rhs : Built iw addFits mulFits b w)
    (negates : ∀ k, ofInt (-1) w = .ok k → mulFits [k, b] = true)
    (fits : ∀ n, Expr.negation iw b = .ok n → addFits [a, n] = true)
    (run : difference iw a b = .ok r) : Built iw addFits mulFits r w := by
  obtain ⟨n, hn, run⟩ := bind_eq_ok.mp run
  exact .sum (by simp) (by simpa using ⟨lhs, rhs.negation negates hn⟩) (fits n hn) run

end Built

/-- Whatever the constructors reach is in canonical form, as long as no steps of recurrences cancel
while terms are left beside. -/
theorem canonical_of_built (built : Built iw (sumFits iw) (productFits iw) e w) : Canonical e :=
  built.settled.canonical

section beside

/-- The iterations of the inner loop, counted once more with the step `v`, and again in a narrower
word that was extended. -/
def counts (v : Int) : List Expr :=
  [recurrence (const 0 64) (const 1 64) innerLoop, recurrence (const 0 64) (const v 64) innerLoop,
    cast .zeroExtend (recurrence (const 0 32) (const 1 32) innerLoop) 64]

theorem built_counts (one : ofInt v 64 = .ok (const v 64)) (moves : v ≠ 0) :
    ∀ e ∈ counts v, Built iw addFits mulFits e 64 := by
  have number {u n : Int} (pos : 0 < n) (run : ofInt u n = .ok (const u n)) :
      Built iw addFits mulFits (const u n) n := .const pos run
  have zero := number (u := 0) (n := 64) (by decide) rfl
  have index : Built iw addFits mulFits (recurrence (const 0 64) (const 1 64) innerLoop) 64 :=
    .inductionVariable (l := innerLoop) (by decide) rfl
  have narrow : Built iw addFits mulFits (recurrence (const 0 32) (const 1 32) innerLoop) 32 :=
    .inductionVariable (l := innerLoop) (by decide) rfl
  have back : Built iw addFits mulFits (recurrence (const 0 64) (const v 64) innerLoop) 64 := by
    have made := Built.recurrence innerLoop zero (number (by decide) one)
    simpa [recur, isZero, moves] using made
  have extended : Built iw addFits mulFits
      (cast .zeroExtend (recurrence (const 0 32) (const 1 32) innerLoop) 64) 64 :=
    .cast narrow (show Admits .zeroExtend 32 64 by simp [Admits]) rfl
  simpa [counts] using ⟨index, back, extended⟩

theorem canonical_of_built_counts :
    ∃ r, sumOf 64 (counts 1) = .ok r ∧ Built 64 (sumFits 64) (productFits 64) r 64 ∧ Canonical r := by
  have run : sumOf 64 (counts 1) = .ok (nary .sum
      [cast .zeroExtend (recurrence (const 0 32) (const 1 32) innerLoop) 64,
        recurrence (const 0 64) (const 2 64) innerLoop]) := by decide +kernel
  have fits : sumFits 64 (counts 1) = true := by decide +kernel
  have built : Built 64 (sumFits 64) (productFits 64) _ 64 :=
    .sum (by decide) (built_counts rfl (by decide)) fits run
  exact ⟨_, run, built, canonical_of_built built⟩

/-- Where the steps cancel, the zero that is left is not dropped. -/
theorem canonical_of_built_cancelled :
    ∃ r, sumOf 64 (counts (-1)) = .ok r ∧ Built 64 (fun _ => true) (fun _ => true) r 64 ∧
      ¬ Canonical r := by
  have run : sumOf 64 (counts (-1)) = .ok (nary .sum [const 0 64,
      cast .zeroExtend (recurrence (const 0 32) (const 1 32) innerLoop) 64]) := by decide +kernel
  refine ⟨_, run, .sum (by decide) (built_counts rfl (by decide)) rfl run, ?_⟩
  rintro (_ | _ | ⟨fit, -⟩)
  exact fit.notTrivial 0 64 (by simp) rfl

end beside

end ShapeRecovery.Expr
