import ShapeRecovery.Proofs.Expr.Monomial

namespace ShapeRecovery.Expr

/-- No two of the monomials have the same leaves. -/
def Apart (ts : List Expr) : Prop :=
  ts.Pairwise fun a b => ¬ (leaves a).Perm (leaves b)

/-- An integer combination of products of leaves. -/
inductive Linear (w : Int) : Expr → Prop
  | zero : Linear w (.const 0 w)
  | monomial {e : Expr} (term : Monomial w e) : Linear w e
  | sum {ts : List Expr} (several : 2 ≤ ts.length) (terms : ∀ t ∈ ts, Monomial w t)
    (apart : Apart ts) : Linear w (.nary .sum ts)

/-- The greatest common divisor of the coefficients, in a nest of recurrences of all coefficients. -/
def content : Expr → Nat
  | nary .sum ts => gcdAll (ts.map coefficient)
  | recurrence start step _ => Nat.gcd (content start) (content step)
  | e => (coefficient e).natAbs

variable {w iw : Int} {e : Expr} {es ts : List Expr}

theorem Monomial.content (term : Monomial w e) : content e = (coefficient e).natAbs := by
  cases term with
  | leaf leaf =>
    obtain ⟨whole, -⟩ := leaf
    unfold Expr.content
    split <;> simp_all [isLeaf]
  | _ => rfl

private theorem Monomial.ne_sum (term : Monomial w e) (fs : List Expr) : e ≠ sum fs := by
  rintro rfl
  cases term with
  | leaf leaf => exact leaf.ne_nary (.inl rfl) fs rfl

theorem Apart.perm {us : List Expr} (apart : Apart ts) (perm : ts.Perm us) : Apart us :=
  (perm.pairwise_iff fun differ same => differ same.symm).mp apart

/-- `t` is the monomial `e` but for the order of the leaves. -/
structure Alike (w : Int) (e t : Expr) : Prop where
  term : Monomial w t
  coef : coefficient t = coefficient e
  same : (leaves t).Perm (leaves e)

theorem Apart.of_same {us : List Expr} (apart : Apart ts)
    (same : List.Forall₂ (fun e t => (leaves t).Perm (leaves e)) ts us) : Apart us := by
  induction same with
  | nil => exact .nil
  | @cons e t es us here rest ih =>
    obtain ⟨first, others⟩ := List.pairwise_cons.mp apart
    refine .cons (fun u hu perm => ?_) (ih others)
    obtain ⟨f, hf, there⟩ := exists_of_forall₂ rest hu
    exact first f hf ((here.symm.trans perm).trans there)

section sum

/-- The product of leaves in their order. -/
def joined : List Expr → Expr
  | [a] => a
  | as => product as

private theorem joined_spec {as : List Expr} (some : as ≠ []) (each : ∀ a ∈ as, Leaf w a) :
    Monomial w (joined as) ∧ coefficient (joined as) = 1 ∧ leaves (joined as) = as := by
  match as with
  | [a] =>
    have leaf := each a (by simp)
    exact ⟨.leaf leaf, leaf.coefficient, leaf.leaves⟩
  | a :: b :: as =>
    have several : 2 ≤ (a :: b :: as).length := by simp
    exact ⟨.product several each, coefficient_product several each⟩

theorem Monomial.joined (term : Monomial w e) (other : e.isConst = false) :
    Monomial w (joined (leaves e)) ∧ coefficient (joined (leaves e)) = 1 ∧
      leaves (joined (leaves e)) = leaves e := by
  refine joined_spec (fun none => ?_) term.leaf_of_mem
  simp [term.isConst_iff.mpr none] at other

theorem Monomial.asMultiple (term : Monomial w e) (other : e.isConst = false) :
    asMultiple e = .ok (coefficient e, Expr.joined (leaves e)) := by
  cases term with
  | const _ _ => simp [isConst] at other
  | leaf leaf =>
    rw [leaf.coefficient, leaf.leaves]
    unfold Expr.asMultiple
    split
    · exact absurd rfl (leaf.ne_nary (.inr rfl) _)
    · exact absurd rfl (leaf.ne_nary (.inr rfl) _)
    · exact absurd rfl (leaf.ne_nary (.inr rfl) _)
    · rfl
  | @product es several each =>
    rw [(coefficient_product several each).1, (coefficient_product several each).2]
    rcases es with _ | ⟨a, _ | ⟨b, es⟩⟩
    · simp at several
    · simp at several
    · have first := (each a (by simp)).isConst
      cases a with
      | const v c => simp [isConst] at first
      | _ => rfl
  | @scaled v es _ _ _ several _ =>
    rcases es with _ | ⟨a, _ | ⟨b, es⟩⟩
    · exact absurd rfl several
    · rfl
    · rfl

private theorem addMultiple_fresh {c : Int} {ms : List (Expr × Int)} (fresh : ∀ p ∈ ms, p.1 ≠ e) :
    Terms.addMultiple e c ms = ms ++ [(e, c)] := by
  induction ms with
  | nil => rfl
  | cons p ms ih =>
    rw [Terms.addMultiple, if_neg (fresh p (by simp)), ih fun q hq => fresh q (by simp [hq])]
    rfl

private theorem insert_monomial {t : Terms} (term : Monomial w e) (other : e.isConst = false)
    (fresh : ∀ p ∈ t.multiples, p.1 ≠ Expr.joined (leaves e)) :
    t.insert e =
      .ok { t with multiples := t.multiples ++ [(Expr.joined (leaves e), coefficient e)] } := by
  have step : t.insert e = (asMultiple e >>= fun part =>
      pure { t with multiples := Terms.addMultiple part.2 part.1 t.multiples }) := by
    cases term with
    | const _ _ => simp [isConst] at other
    | leaf leaf =>
      obtain ⟨whole, -⟩ := leaf
      cases e with
      | const v b => simp [isConst] at other
      | recurrence a b l => simp [isLeaf] at whole
      | _ => rfl
    | _ => rfl
  rw [step, term.asMultiple other]
  simp only [ok_bind, pure_eq_ok, addMultiple_fresh fresh]

/-- The entry of a monomial among the multiples of a sum. -/
def entry (e : Expr) : Expr × Int := (joined (leaves e), coefficient e)

private theorem foldlM_monomials {t : Terms} (terms : ∀ e ∈ es, Monomial w e) (apart : Apart es)
    (fresh : ∀ e ∈ es, e.isConst = false → ∀ p ∈ t.multiples, p.1 ≠ joined (leaves e)) :
    es.foldlM Terms.insert t = .ok {
      constant := t.constant + ((es.filter isConst).map coefficient).sum
      multiples := t.multiples ++ (es.filter fun e => !e.isConst).map entry
      recurrences := t.recurrences } := by
  induction es generalizing t with
  | nil => simp
  | cons e es ih =>
    obtain ⟨first, others⟩ := List.pairwise_cons.mp apart
    have term := terms e (by simp)
    have rest {t : Terms} := @ih t (fun f hf => terms f (by simp [hf])) others
    rw [List.foldlM_cons]
    cases kind : e.isConst with
    | true =>
      cases e with
      | const v b =>
        have step : t.insert (const v b) = .ok { t with constant := t.constant + v } := rfl
        have later := @rest { t with constant := t.constant + v } fun f hf => fresh f (by simp [hf])
        rw [step, ok_bind, later, List.filter_cons_of_pos kind]
        simp [isConst, add_assoc]
      | _ => simp [isConst] at kind
    | false =>
      rw [insert_monomial term kind (fresh e (by simp) kind), ok_bind, rest]
      · simp [kind, entry]
      · intro f hf other p hp
        rcases List.mem_append.mp hp with hp | hp
        · exact fresh f (by simp [hf]) other p hp
        · rw [List.mem_singleton.mp hp]
          intro (same : joined (leaves e) = joined (leaves f))
          have parts := (term.joined kind).2.2
          rw [same, ((terms f (by simp [hf])).joined other).2.2] at parts
          exact first f hf (parts ▸ .refl _)

/-- Zeros leave a sum as it is. -/
private theorem foldlM_zeros {t : Terms} :
    es.foldlM Terms.insert t = (es.filter fun e => !e.isZero).foldlM Terms.insert t := by
  induction es generalizing t with
  | nil => rfl
  | cons e es ih =>
    cases zero : e.isZero with
    | false =>
      rw [List.filter_cons_of_pos (by simp [zero]), List.foldlM_cons, List.foldlM_cons]
      exact bind_congr fun t => ih
    | true =>
      rw [List.filter_cons_of_neg (by simp [zero]), List.foldlM_cons, ← ih]
      cases e with
      | const v b =>
        obtain rfl : v = 0 := by simpa [isZero] using zero
        have step : t.insert (const 0 b) = .ok t := by simp [Terms.insert]
        rw [step, ok_bind]
      | _ => simp [isZero] at zero

private theorem scaleTerm_monomial (fuel : Nat) (wide : 2 ≤ w) (term : Monomial w e)
    (other : e.isConst = false) :
    ∃ t, scaleTerm (productWithin iw (fuel + 1)) w (joined (leaves e)) (coefficient e) = .ok [t] ∧
      Alike w e t := by
  have pos : 0 < w := by omega
  obtain ⟨part, unit, whole⟩ := term.joined other
  obtain ⟨bounded, nonzero⟩ := term.coefficient_bounded wide
  have small := (searchable_of_bounded bounded).1
  have signed : Word.signed (coefficient e) w = .ok (coefficient e) := by
    rw [Word.signed_eq pos, Word.bmod_of_inRange pos small.inRange]
  by_cases one : coefficient e = 1
  · refine ⟨joined (leaves e), ?_, part, unit.trans one.symm, by rw [whole]⟩
    simp only [scaleTerm, signed, ok_bind, if_pos one, pure_eq_ok]
  · have terms : ∀ f ∈ [const (coefficient e) w, joined (leaves e)], Monomial w f := by
      simpa using ⟨.const nonzero bounded, part⟩
    have total : ([const (coefficient e) w, joined (leaves e)].map coefficient).prod =
        coefficient e := by
      simp [unit]
    obtain ⟨t, run, made, coef, same⟩ := productWithin_monomials iw fuel wide (by simp) terms
      (by rwa [total])
    refine ⟨t, ?_, made, coef.trans total, ?_⟩
    · simp only [scaleTerm, signed, ok_bind, if_neg one, if_neg nonzero, ofInt_small pos small, run,
        pure_eq_ok]
    · simpa [whole] using same

private theorem scaleTerms_monomials (fuel : Nat) (wide : 2 ≤ w) (terms : ∀ e ∈ es, Monomial w e)
    (others : ∀ e ∈ es, e.isConst = false) :
    ∃ ts, scaleTerms (productWithin iw (fuel + 1)) w (es.map entry) = .ok ts ∧
      List.Forall₂ (Alike w) es ts := by
  induction es with
  | nil => exact ⟨[], rfl, .nil⟩
  | cons e es ih =>
    obtain ⟨t, run, here⟩ : ∃ t, scaleTerm (productWithin iw (fuel + 1)) w (joined (leaves e))
        (coefficient e) = .ok [t] ∧ Alike w e t :=
      scaleTerm_monomial fuel wide (terms e (by simp)) (others e (by simp))
    obtain ⟨ts, rest, there⟩ := ih (fun f hf => terms f (by simp [hf]))
      fun f hf => others f (by simp [hf])
    refine ⟨t :: ts, ?_, .cons here there⟩
    simp only [List.map_cons, entry, scaleTerms, run, ok_bind]
    rw [rest]
    rfl

/-- At most one of the monomials is a constant. -/
private theorem constantTerm_monomials (wide : 2 ≤ w) (terms : ∀ e ∈ es, Monomial w e) (apart : Apart es) :
    ∃ c, Word.signed ((es.filter isConst).map coefficient).sum w = .ok c ∧
      constantTerm w c = .ok (es.filter isConst) := by
  have pos : 0 < w := by omega
  have apart' : Apart (es.filter isConst) := List.Pairwise.filter _ apart
  have each : ∀ e ∈ es.filter isConst, ∃ v, e = const v w ∧ v ≠ 0 ∧ Small w v := by
    intro e he
    obtain ⟨mem, kind⟩ := List.mem_filter.mp he
    cases terms e mem with
    | @const v some bounded => exact ⟨v, rfl, some, (searchable_of_bounded bounded).1⟩
    | leaf leaf => simp [leaf.isConst] at kind
    | _ => simp [isConst] at kind
  rcases found : es.filter isConst with _ | ⟨e, _ | ⟨f, rest⟩⟩
  · exact ⟨0, by simp [Word.signed_eq pos], by simp [constantTerm]⟩
  · obtain ⟨v, rfl, nonzero, small⟩ := each e (by simp [found])
    refine ⟨v, ?_, by simp [constantTerm, nonzero, ofInt_small pos small]⟩
    simp [Word.signed_eq pos, Word.bmod_of_inRange pos small.inRange]
  · obtain ⟨v, rfl, -, -⟩ := each e (by simp [found])
    obtain ⟨u, rfl, -, -⟩ := each f (by simp [found])
    rw [found] at apart'
    exact absurd (.refl _) ((List.pairwise_cons.mp apart').1 (const u w) (by simp))

/-- Monomials that differ in their leaves, in canonical order, are a linear combination. -/
private theorem ordered_linear (some : ts ≠ []) (pos : 0 < w) (terms : ∀ t ∈ ts, Monomial w t)
    (apart : Apart ts) :
    ∃ r, ordered .sum ts = .ok r ∧ Linear w r ∧ content r = gcdAll (ts.map coefficient) ∧
      (r.isConst = true → ∀ t ∈ ts, t.isConst = true) := by
  obtain ⟨r, run, arranged⟩ := ordered_arranged .sum fun t ht => ((terms t ht).hasBits pos).text
  refine ⟨r, run, ?_⟩
  rcases arranged with rfl | ⟨several, fs, perm, rfl⟩
  · have term := terms r (by simp)
    exact ⟨.monomial term, by simp [term.content, gcdAll], by simp⟩
  · have length := perm.length_eq
    have filled := List.length_pos_of_ne_nil some
    refine ⟨.sum (by omega) (fun f hf => terms f (perm.mem_iff.mp hf)) (apart.perm perm.symm), ?_,
      by simp [isConst]⟩
    exact gcdAll_congr fun v => (perm.map coefficient).mem_iff

private theorem gcdAll_nonzero (es : List Expr) :
    gcdAll ((es.filter fun e => !e.isZero).map coefficient) = gcdAll (es.map coefficient) := by
  induction es with
  | nil => rfl
  | cons e es ih =>
    cases zero : e.isZero with
    | false => rw [List.filter_cons_of_pos (by simp [zero]), List.map_cons, List.map_cons, gcdAll,
        gcdAll, ih]
    | true =>
      cases e with
      | const v b =>
        obtain rfl : v = 0 := by simpa [isZero] using zero
        rw [List.filter_cons_of_neg (by simp [zero]), ih]
        simp [gcdAll]
      | _ => simp [isZero] at zero

/-- Monomials that differ in their leaves are joined to a linear combination of them, once their
constants are put in front and the others are scaled. -/
private theorem joinLike_monomials (add : List Expr → Except Fault Expr) (pos : 0 < w) {us : List Expr}
    (terms : ∀ t ∈ ts, Monomial w t) (apart : Apart ts)
    (alike : List.Forall₂ (Alike w) (ts.filter fun e => !e.isConst) us) :
    ∃ r, joinLike add w (ts.filter isConst ++ us) [] = .ok r ∧ Linear w r ∧
      content r = gcdAll (ts.map coefficient) ∧ (r.isConst = true → ∀ t ∈ ts, t.isConst = true) := by
  have perm : (ts.filter isConst ++ ts.filter fun e => !e.isConst).Perm ts :=
    List.filter_append_perm isConst ts
  have alike' : List.Forall₂ (Alike w) (ts.filter isConst ++ ts.filter fun e => !e.isConst)
      (ts.filter isConst ++ us) := by
    refine List.rel_append (List.forall₂_same.mpr fun e he => ?_) alike
    exact ⟨terms e (List.mem_of_mem_filter he), rfl, .refl _⟩
  have apart' := (apart.perm perm.symm).of_same (alike'.imp fun e t h => h.same)
  have terms' : ∀ t ∈ ts.filter isConst ++ us, Monomial w t := by
    intro t ht
    obtain ⟨e, he, like⟩ := exists_of_forall₂ alike' ht
    exact like.term
  have coefs : gcdAll ((ts.filter isConst ++ us).map coefficient) = gcdAll (ts.map coefficient) := by
    rw [map_eq_of_forall₂ (alike'.imp fun e t h => h.coef)]
    exact gcdAll_congr fun v => (perm.map coefficient).mem_iff
  have constants (none : ∀ t ∈ ts.filter isConst ++ us, t.isConst = true) :
      ∀ t ∈ ts, t.isConst = true := by
    intro e mem
    obtain ⟨t, ht, like⟩ := exists_of_forall₂ alike'.flip (perm.mem_iff.mpr mem)
    have bare := like.term.isConst_iff.mp (none t ht)
    exact (terms e mem).isConst_iff.mpr (List.perm_nil.mp (bare ▸ like.same.symm))
  generalize ts.filter isConst ++ us = rest at apart' terms' coefs constants
  by_cases none : rest = []
  · subst none
    exact ⟨const 0 w, zero_eq pos, .zero, coefs, fun _ => constants (by simp)⟩
  · obtain ⟨r, sorted, linear, whole, kind⟩ := ordered_linear none pos terms' apart'
    refine ⟨r, ?_, linear, whole.trans coefs, fun h => constants (kind h)⟩
    simp only [joinLike, List.isEmpty_eq_false_iff.mpr none, Bool.false_eq_true, if_false, sorted]

/-- Zeros and monomials that differ in their leaves add up to a linear combination of these
monomials. -/
theorem sumOf_monomials (iw : Int) (wide : 2 ≤ w) (some : es ≠ [])
    (each : ∀ e ∈ es, e = const 0 w ∨ Monomial w e) (apart : Apart (es.filter fun e => !e.isZero)) :
    ∃ r, sumOf iw es = .ok r ∧ Linear w r ∧ content r = gcdAll (es.map coefficient) ∧
      (r.isConst = true → ∀ e ∈ es, e.isConst = true) := by
  have pos : 0 < w := by omega
  have typed : AllBits es w := fun e he => (each e he).elim (fun zero => zero ▸ hasBits_zero pos)
    fun term => term.hasBits pos
  have flat : flatten .sum es = es := flatten_opened fun e he same => by
    obtain ⟨fs, rfl⟩ := naryOp_eq.mp same
    exact (each _ he).elim (by simp) fun term => term.ne_sum fs rfl
  have start : Terms.ofList es = (es.filter fun e => !e.isZero).foldlM Terms.insert .empty :=
    foldlM_zeros
  have total := gcdAll_nonzero es
  have kept : ∀ e ∈ es, e.isConst = false → e ∈ es.filter fun e => !e.isZero := by
    intro e he other
    refine List.mem_filter.mpr ⟨he, ?_⟩
    cases e <;> simp_all [isZero, isConst]
  have terms : ∀ e ∈ es.filter fun e => !e.isZero, Monomial w e := by
    intro e he
    obtain ⟨mem, nonzero⟩ := List.mem_filter.mp he
    exact (each e mem).resolve_left fun zero => by simp [zero, isZero] at nonzero
  generalize (es.filter fun e => !e.isZero) = ts at apart start total kept terms
  rw [foldlM_monomials terms apart (by simp [Terms.empty])] at start
  obtain ⟨c, signed, first⟩ := constantTerm_monomials wide terms apart
  obtain ⟨m, fuel⟩ : ∃ m, fuelFor .sum es = m + 2 := ⟨4 * weight (sum es) + 2, rfl⟩
  obtain ⟨us, scaled, alike⟩ : ∃ us, scaleTerms (productWithin iw (m + 1)) w
      ((ts.filter fun e => !e.isConst).map entry) = .ok us ∧
        List.Forall₂ (Alike w) (ts.filter fun e => !e.isConst) us :=
    scaleTerms_monomials m wide (fun e he => terms e (List.mem_of_mem_filter he)) fun e he => by
      simpa using (List.mem_filter.mp he).2
  obtain ⟨r, run, linear, whole, constants⟩ :=
    joinLike_monomials (sumWithin iw (m + 1)) pos terms apart alike
  refine ⟨r, ?_, linear, whole.trans total, fun kind e he => ?_⟩
  · have width := commonWidth_eq iw typed some
    simp only [sumOf, fuel, sumWithin, sumStep, List.isEmpty_eq_false_iff.mpr some,
      typed.no_uncomputable, flat, width, start, collectLike, Terms.empty, zero_add, signed, first,
      List.nil_append, scaled, mergeAll, ok_bind, pure_eq_ok, Bool.false_eq_true, if_false]
    exact run
  · by_contra other
    exact other (constants kind e (kept e he (by simpa using other)))

end sum

namespace Linear

theorem hasBits (linear : Linear w e) (pos : 0 < w) : HasBits e w := by
  cases linear with
  | zero => exact hasBits_zero pos
  | monomial term => exact term.hasBits pos
  | sum several terms _ => exact .nary several fun t ht => (terms t ht).hasBits pos

/-- Only zero has the content zero. -/
theorem content_eq_zero (linear : Linear w e) (wide : 2 ≤ w) (none : content e = 0) :
    e = const 0 w := by
  cases linear with
  | zero => rfl
  | monomial term =>
    rw [term.content, Int.natAbs_eq_zero] at none
    exact absurd none (term.coefficient_bounded wide).2
  | @sum ts several terms _ =>
    obtain ⟨t, ht⟩ := List.exists_mem_of_length_pos (show 0 < ts.length by omega)
    have divides := dvd_gcdAll.mp (show 0 ∣ gcdAll (ts.map coefficient) from none ▸ dvd_rfl) _
      (List.mem_map_of_mem ht)
    exact absurd (Int.zero_dvd.mp divides) ((terms t ht).coefficient_bounded wide).2

theorem isZero_iff (linear : Linear w e) (wide : 2 ≤ w) : e.isZero = true ↔ content e = 0 := by
  constructor
  · intro zero
    cases e with
    | const v b => simpa [isZero, content] using zero
    | _ => simp [isZero] at zero
  · intro none
    rw [linear.content_eq_zero wide none]
    rfl

theorem content_bounded (linear : Linear w e) (wide : 2 ≤ w) : content e < nestBound w := by
  cases linear with
  | zero => exact lt_min (Nat.two_pow_pos 32) (Word.modulus_pos _)
  | monomial term => exact term.content ▸ (term.coefficient_bounded wide).1
  | @sum ts several terms _ =>
    refine gcdAll_lt ?_ fun v hv => ?_
    · exact List.ne_nil_of_length_pos (by rw [List.length_map]; omega)
    · obtain ⟨t, ht, rfl⟩ := List.mem_map.mp hv
      exact ((terms t ht).coefficient_bounded wide).1

end Linear

section division

variable {k : Int} {q r : Expr}

private theorem gcdAll_mul (k : Int) (vs : List Int) :
    gcdAll (vs.map (k * ·)) = k.natAbs * gcdAll vs := by
  induction vs with
  | nil => rfl
  | cons v vs ih => rw [List.map_cons, gcdAll, gcdAll, ih, Int.natAbs_mul, Nat.gcd_mul_left]

/-- What dividing the linear combination `e` by the constant `k` gives: all of the constant is taken
out of the content, or something remains. -/
inductive Reduces (w k : Int) (e q r : Expr) : Prop
  | whole (linear : Linear w q) (part : content e = k.natAbs * content q)
    (kind : q.isConst = true → e.isConst = true) (none : r = const 0 w)
  | rest (other : k.natAbs ∣ content e → k = -1) (some : r.isZero = false)

private theorem TakesOut.reduces (term : Monomial w e) (out : TakesOut w k e q r) : Reduces w k e q r := by
  cases out with
  | whole divides made coef same none =>
    refine .whole (.monomial made) ?_ (fun kind => ?_) none
    · rw [term.content, made.content, coef, ← Int.natAbs_mul, Int.mul_ediv_cancel' divides]
    · rw [made.isConst_iff] at kind
      exact term.isConst_iff.mpr (List.perm_nil.mp (kind ▸ same.symm))
  | rest other left _ _ =>
    refine .rest (fun divides => other ?_) left.isZero
    rwa [term.content, Int.natAbs_dvd_natAbs] at divides

private theorem divideTerms_monomials (iw : Int) (wide : 2 ≤ w) (terms : ∀ t ∈ ts, Monomial w t)
    (nonzero : k ≠ 0) :
    ∃ qrs, divideTerms iw (const k w) ts = .ok qrs ∧
      List.Forall₂ (fun t qr => TakesOut w k t qr.1 qr.2) ts qrs := by
  induction ts with
  | nil => exact ⟨[], rfl, .nil⟩
  | cons t ts ih =>
    obtain ⟨q, r, run, here⟩ := quotRem_monomial iw wide (terms t (by simp)) nonzero
    obtain ⟨qrs, rest, there⟩ := ih fun u hu => terms u (by simp [hu])
    change divideByAtom iw (const k w) t = _ at run
    exact ⟨(q, r) :: qrs, by simp [divideTerms, run, rest], .cons here there⟩

/-- The remainders of monomials differ in their leaves as the monomials do. -/
private theorem remainders_apart {qrs : List (Expr × Expr)} (apart : Apart ts)
    (each : List.Forall₂ (fun t qr => TakesOut w k t qr.1 qr.2) ts qrs) :
    (∀ qr ∈ qrs, qr.2 = const 0 w ∨ Monomial w qr.2) ∧
      Apart ((qrs.map Prod.snd).filter fun e => !e.isZero) := by
  have remains : ∀ {t : Expr} {qr : Expr × Expr}, TakesOut w k t qr.1 qr.2 →
      qr.2 = const 0 w ∨ Monomial w qr.2 ∧ leaves qr.2 = leaves t := by
    intro t qr out
    cases out with
    | whole _ _ _ _ none => exact .inl none
    | rest _ term same _ => exact .inr ⟨term, same⟩
  induction each with
  | nil => exact ⟨by simp, .nil⟩
  | @cons t qr ts qrs here rest ih =>
    obtain ⟨first, others⟩ := List.pairwise_cons.mp apart
    obtain ⟨kinds, apart'⟩ := ih others
    refine ⟨?_, ?_⟩
    · intro p hp
      rcases List.mem_cons.mp hp with rfl | hp
      · exact (remains here).imp_right And.left
      · exact kinds p hp
    · rcases remains here with zero | ⟨term, same⟩
      · simpa [zero, isZero] using apart'
      · rw [List.map_cons, List.filter_cons_of_pos (by simp [term.isZero])]
        refine .cons (fun u hu perm => ?_) apart'
        obtain ⟨mem, nonzero⟩ := List.mem_filter.mp hu
        obtain ⟨p, hp, rfl⟩ := List.mem_map.mp mem
        obtain ⟨s, hs, there⟩ := exists_of_forall₂ rest hp
        rcases remains there with zero | ⟨-, same'⟩
        · simp [zero, isZero] at nonzero
        · exact first s hs (same ▸ same' ▸ perm)

/-- The quotients of monomials that are divided without a remainder. -/
private theorem quotients_spec {qrs : List (Expr × Expr)}
    (each : List.Forall₂ (fun t qr => TakesOut w k t qr.1 qr.2) ts qrs)
    (whole : ∀ qr ∈ qrs, qr.2 = const 0 w) :
    (∀ q ∈ qrs.map Prod.fst, Monomial w q) ∧
      List.Forall₂ (fun t q => (leaves q).Perm (leaves t)) ts (qrs.map Prod.fst) ∧
      ts.map coefficient = (qrs.map Prod.fst).map fun q => k * coefficient q := by
  induction each with
  | nil => exact ⟨by simp, .nil, rfl⟩
  | @cons t qr ts qrs here _ ih =>
    obtain ⟨terms, same, coefs⟩ := ih fun p hp => whole p (by simp [hp])
    cases here with
    | whole divides term coef perm _ =>
      refine ⟨?_, .cons perm same, ?_⟩
      · simpa using ⟨term, by simpa using terms⟩
      · rw [List.map_cons, List.map_cons, List.map_cons, coefs, coef, Int.mul_ediv_cancel' divides]
    | rest _ term _ _ =>
      have none := whole qr (by simp)
      have zero := term.isZero
      simp [none, isZero] at zero

/-- Constants have the same leaves, none, so there are other monomials among several. -/
private theorem Apart.not_constants (apart : Apart ts) (several : 2 ≤ ts.length)
    (terms : ∀ t ∈ ts, Monomial w t) : ¬ ∀ t ∈ ts, t.isConst = true := by
  intro constants
  have bare : ∀ t ∈ ts, leaves t = [] := fun t ht => (terms t ht).isConst_iff.mp (constants t ht)
  rcases ts with _ | ⟨a, _ | ⟨b, rest⟩⟩
  · simp at several
  · simp at several
  · have differ := (List.pairwise_cons.mp apart).1 b (by simp)
    rw [bare a (by simp), bare b (by simp)] at differ
    exact differ (.refl _)

/-- The quotients and the remainders of its terms add up to those of a sum. -/
private theorem reduces_sum (iw : Int) (wide : 2 ≤ w) (several : 2 ≤ ts.length) (apart : Apart ts)
    {qrs : List (Expr × Expr)} (each : List.Forall₂ (fun t qr => TakesOut w k t qr.1 qr.2) ts qrs)
    {q r : Expr} (hq : sumOf iw (qrs.map Prod.fst) = .ok q)
    (hr : sumOf iw (qrs.map Prod.snd) = .ok r) : Reduces w k (sum ts) q r := by
  have some : qrs ≠ [] := List.ne_nil_of_length_pos (by rw [← each.length_eq]; omega)
  obtain ⟨kinds, apart'⟩ := remainders_apart apart each
  obtain ⟨r', hr', linear, total, -⟩ := sumOf_monomials iw wide (by simpa using some)
    (List.forall_mem_map.mpr kinds) apart'
  obtain rfl : r = r' := Except.ok.inj (hr.symm.trans hr')
  by_cases every : ∀ qr ∈ qrs, qr.2 = const 0 w
  · obtain ⟨terms', same, coefs⟩ := quotients_spec each every
    have apart'' := apart.of_same same
    have all : ((qrs.map Prod.fst).filter fun e => !e.isZero) = qrs.map Prod.fst :=
      List.filter_eq_self.mpr fun q hq => by simp [(terms' q hq).isZero]
    obtain ⟨q', hq', made, part, kind⟩ := sumOf_monomials iw wide (by simpa using some)
      (fun q hq => .inr (terms' q hq)) (all.symm ▸ apart'')
    obtain rfl : q = q' := Except.ok.inj (hq.symm.trans hq')
    refine .whole made ?_ (fun whole => ?_) (linear.content_eq_zero wide ?_)
    · rw [part, ← gcdAll_mul, List.map_map, content, coefs]
      rfl
    · have length : 2 ≤ (qrs.map Prod.fst).length := by rwa [List.length_map, ← each.length_eq]
      exact absurd (kind whole) (apart''.not_constants length terms')
    · rw [total]
      refine Nat.eq_zero_of_zero_dvd (dvd_gcdAll.mpr fun v hv => ?_)
      obtain ⟨r, hr, rfl⟩ := List.mem_map.mp hv
      obtain ⟨qr, hqr, rfl⟩ := List.mem_map.mp hr
      simp [every qr hqr]
  · push Not at every
    obtain ⟨qr, hqr, left⟩ := every
    obtain ⟨t, ht, out⟩ := exists_of_forall₂ each hqr
    refine .rest (fun divides => ?_) ?_
    · have each' := dvd_gcdAll.mp divides (coefficient t) (List.mem_map_of_mem ht)
      cases out with
      | whole _ _ _ _ none => exact absurd none left
      | rest other _ _ _ => exact other (Int.natAbs_dvd.mp each')
    · have term := (kinds qr hqr).resolve_left left
      rw [← Bool.not_eq_true, linear.isZero_iff wide, total]
      intro none
      have zero := dvd_gcdAll.mp (show 0 ∣ _ from none ▸ dvd_rfl) (coefficient qr.2)
        (List.mem_map_of_mem (List.mem_map_of_mem hqr))
      exact (term.coefficient_bounded wide).2 (Int.zero_dvd.mp zero)

theorem quotRem_linear (iw : Int) (wide : 2 ≤ w) (linear : Linear w e) (small : Small w k)
    (nonzero : k ≠ 0) : ∃ q r, quotRem iw e (const k w) = .ok (q, r) ∧ Reduces w k e q r := by
  have pos : 0 < w := by omega
  have typed := linear.hasBits pos
  cases linear with
  | zero =>
    refine ⟨_, _, quotRem_const iw pos small_zero nonzero, ?_⟩
    rw [Int.zero_tdiv, Int.zero_tmod]
    exact .whole .zero rfl (fun _ => rfl) rfl
  | monomial term =>
    obtain ⟨q, r, run, out⟩ := quotRem_monomial iw wide term nonzero
    exact ⟨q, r, run, out.reduces term⟩
  | @sum ts several terms apart =>
    by_cases one : k = 1
    · subst one
      exact ⟨sum ts, const 0 w, quotRem_one iw typed rfl,
        .whole (.sum several terms apart) (Nat.one_mul _).symm id rfl⟩
    have later : immediateDivision? w (sum ts) (const k w) = .ok none :=
      immediateDivision_none (by simp) rfl (by simpa [isOne] using one)
    obtain ⟨qrs, parts, each⟩ := divideTerms_monomials iw wide terms nonzero
    obtain ⟨⟨a, b⟩, run, -⟩ := divideBy_spec iw (small.hasBits pos) typed
    refine ⟨a, b, run, ?_⟩
    rw [divideBy_atom (by simp [naryOp?]), divideByAtom_sum_later typed later, parts, ok_bind] at run
    obtain ⟨q, hq, run⟩ := bind_eq_ok.mp run
    obtain ⟨r, hr, run⟩ := bind_eq_ok.mp run
    obtain ⟨rfl, rfl⟩ := Prod.mk.inj (Except.ok.inj run)
    exact reduces_sum iw wide several apart each hq hr

/-- A sum is not taken out of a monomial. -/
theorem divideByAtom_monomial_sum (iw : Int) (wide : 2 ≤ w) (term : Monomial w e) (fs : List Expr) :
    divideByAtom iw (sum fs) e = .ok (const 0 w, e) := by
  have pos : 0 < w := by omega
  have typed := term.hasBits pos
  have leaf {a : Expr} (leaf : Leaf w a) : a ≠ sum fs := leaf.ne_nary (.inl rfl) fs
  have constant {v : Int} (some : v ≠ 0) :
      divideByAtom iw (sum fs) (const v w) = .ok (const 0 w, const v w) :=
    divideByAtom_const pos (immediateDivision_none (by simp) (by simpa [isZero] using some) rfl) (by simp)
  cases term with
  | const some _ => exact constant some
  | leaf h => exact divideByAtom_leaf_rest h (leaf h) rfl
  | @product es _ each =>
    have none : divideFactor? iw (sum fs) es = .ok none :=
      divideFactor_leaves each (fun a ha => leaf (each a ha)) rfl
    exact divideByAtom_product_rest typed (immediateDivision_none (by simp) rfl rfl) none (by simp)
  | @scaled v es some _ _ _ each =>
    have rest : divideFactor? iw (sum fs) es = .ok none :=
      divideFactor_leaves each (fun a ha => leaf (each a ha)) rfl
    have none : divideFactor? iw (sum fs) (const v w :: es) = .ok none := by
      simp [divideFactor?, constant some, isZero, some, rest]
    exact divideByAtom_product_rest typed (immediateDivision_none (by simp) rfl rfl) none (by simp)

/-- Of a linear combination other than itself and zero, a sum leaves something. -/
theorem quotRem_linear_sum (iw : Int) (wide : 2 ≤ w) (linear : Linear w e) (some : e.isZero = false)
    {fs : List Expr} (other : e ≠ sum fs) (typed' : HasBits (sum fs) w) :
    ∃ q r, quotRem iw e (sum fs) = .ok (q, r) ∧ r.isZero = false := by
  have typed := linear.hasBits (show 0 < w by omega)
  cases linear with
  | zero => simp [isZero] at some
  | monomial term => exact ⟨_, _, divideByAtom_monomial_sum iw wide term fs, some⟩
  | @sum ts several terms apart =>
    have later : immediateDivision? w (sum ts) (sum fs) = .ok none :=
      immediateDivision_none other rfl rfl
    have parts : ∀ {us : List Expr}, (∀ u ∈ us, Monomial w u) →
        divideTerms iw (sum fs) us = .ok (us.map fun u => (const 0 w, u)) := by
      intro us terms
      induction us with
      | nil => rfl
      | cons u us ih =>
        have first := divideByAtom_monomial_sum iw wide (terms u (by simp)) fs
        simp [divideTerms, first, ih fun v hv => terms v (by simp [hv])]
    obtain ⟨⟨a, b⟩, run, -⟩ := divideBy_spec iw typed' typed
    refine ⟨a, b, run, ?_⟩
    rw [divideBy_atom (by simp [naryOp?]), divideByAtom_sum_later typed later, parts terms, ok_bind] at run
    obtain ⟨q, hq, run⟩ := bind_eq_ok.mp run
    obtain ⟨r, hr, run⟩ := bind_eq_ok.mp run
    obtain ⟨rfl, rfl⟩ := Prod.mk.inj (Except.ok.inj run)
    have rests : (ts.map fun u => (const 0 w, u)).map Prod.snd = ts := by simp
    have all : (ts.filter fun e => !e.isZero) = ts :=
      List.filter_eq_self.mpr fun t ht => by simp [(terms t ht).isZero]
    obtain ⟨r', hr', left, total, -⟩ := sumOf_monomials iw wide
      (List.ne_nil_of_length_pos (show 0 < ts.length by omega)) (fun t ht => .inr (terms t ht))
      (all.symm ▸ apart)
    rw [rests] at hr
    obtain rfl : r = r' := Except.ok.inj (hr.symm.trans hr')
    have same : content r = content (sum ts) := total
    rw [← Bool.not_eq_true, left.isZero_iff wide, same]
    intro none
    have zero := (Linear.sum several terms apart).content_eq_zero wide none
    simp at zero

end division

end ShapeRecovery.Expr
