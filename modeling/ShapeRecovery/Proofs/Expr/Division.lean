import ShapeRecovery.Proofs.Expr.DivisionSteps
import ShapeRecovery.Proofs.Expr.Hereditary
import ShapeRecovery.Proofs.Expr.Replacement

namespace ShapeRecovery.Expr

/-- The value of an expression, as a gap. -/
def reading (e : Expr) : Gap := fun ρ => e.meaning ρ

@[simp] theorem reading_apply (e : Expr) (ρ : Valuation) : reading e ρ = e.meaning ρ := rfl

/-- By how much the product `num` exceeds an unknown value times what it comes to with one in the place
of that value, when it vanishes with the unknown value and so passes for a multiple of it. -/
def unknownGap (iw : Int) (num : Expr) : Expr → Gap
  | unknown s bits =>
    gapAfter (zero bits) fun nought =>
    gapAfter (substitute iw (lookup [(unknown s bits, nought)]) num) fun r =>
      if r.isZero then
        gapAfter (one bits) fun unit ρ =>
          num.meaning ρ - meaningAfter iw (lookup [(unknown s bits, unit)]) ρ num * ρ.unknown s bits
      else 0
  | _ => 0

mutual

/-- By how much `num` exceeds `q * den + r`, for a denominator that is not taken apart. -/
def atomGap (iw : Int) (den num : Expr) : Gap :=
  gapAfter (commonWidth iw [num, den]) fun w =>
  gapAfter (immediateDivision? w num den) fun
    | some _ => 0
    | none =>
      match num with
      | recurrence start step l => atomGap iw den start + atomGap iw den step * iterations l
      | nary .sum terms =>
        gapAfter (divideTerms iw den terms) fun parts =>
          termsGap iw den terms - sumGap iw (parts.map Prod.fst) * reading den -
            sumGap iw (parts.map Prod.snd)
      | nary .product factors =>
        gapAfter (divideFactor? iw den factors) fun
          | some quotients => factorGap iw den factors - productGap iw quotients * reading den
          | none => unknownGap iw num den
      | _ => 0

def termsGap (iw : Int) (den : Expr) : List Expr → Gap
  | [] => 0
  | e :: es => atomGap iw den e + termsGap iw den es

/-- The gap of the first factor that divides, times the other factors. -/
def factorGap (iw : Int) (den : Expr) : List Expr → Gap
  | [] => 0
  | e :: es =>
    gapAfter (divideByAtom iw den e) fun qr =>
      if qr.2.isZero then atomGap iw den e * reading (product es)
      else reading e * factorGap iw den es

end

mutual

/-- By how much `num` exceeds `q * den + r`. -/
def divisionGap (iw : Int) (den num : Expr) : Gap :=
  match den with
  | nary .product factors =>
    gapAfter (commonWidth iw [num, den]) fun w =>
    gapAfter (immediateDivision? w num den) fun
      | some _ => 0
      | none =>
        gapAfter (divideByAll? iw factors num) fun
          | some _ => chainGap iw factors num
          | none => 0
  | _ => atomGap iw den num

/-- Divisions one after the other: what one of them misses is multiplied by the divisors before. -/
def chainGap (iw : Int) : List Expr → Expr → Gap
  | [], _ => 0
  | factor :: factors, num =>
    gapAfter (divideBy iw factor num) fun qr =>
      divisionGap iw factor num + reading factor * chainGap iw factors qr.1

end

/-- A quotient and a remainder of `num` of its width, which make it up but for the gap. -/
structure Divides (w : Int) (den : Expr) (gap : Gap) (num : Expr) (qr : Expr × Expr) : Prop where
  quotient : HasBits qr.1 w
  remainder : HasBits qr.2 w
  total : ∀ ρ, value w ρ num =
    value w ρ qr.1 * value w ρ den + value w ρ qr.2 + (gap ρ : ZMod (Word.modulus w))

variable {w v iw : Int} {num den : Expr} {es : List Expr} {l : Loop} {qr : Expr × Expr}

section immediate

/-- All of the dividend remains. -/
theorem Divides.rest (hnum : HasBits num w) (den : Expr) : Divides w den 0 num (const 0 w, num) :=
  ⟨hasBits_zero hnum.pos, hnum, fun ρ => by simp⟩

theorem immediateDivision_spec (hnum : HasBits num w) (den : Expr) :
    ∃ o, immediateDivision? w num den = .ok o ∧ ∀ qr ∈ o, Divides w den 0 num qr := by
  have pos := hnum.pos
  have zero {r : Expr} (made : Expr.zero w = .ok r) : r = const 0 w := by
    rw [zero_eq pos] at made
    exact (Except.ok.inj made).symm
  obtain ⟨o, run⟩ := immediateDivision_total pos num den
  refine ⟨o, run, fun qr now => ?_⟩
  obtain ⟨q, r⟩ := qr
  rw [Option.mem_def.mp now] at run
  rcases immediateDivision_cases run with ⟨rfl, hq, hr⟩ | ⟨nought, hq, hr⟩ | ⟨unit, rfl, hr⟩
  · rw [one_eq pos] at hq
    cases hq
    cases zero hr
    exact ⟨hasBits_const_bmod pos 1, hasBits_zero pos, fun ρ => by simp⟩
  · cases zero hq
    cases zero hr
    exact ⟨hasBits_zero pos, hasBits_zero pos, fun ρ => by simp [value_of_isZero w ρ nought]⟩
  · cases zero hr
    exact ⟨hnum, hasBits_zero pos, fun ρ => by simp [value_of_isOne w ρ unit]⟩

end immediate

section gaps

/-- An immediate division misses nothing. -/
theorem atomGap_now (hnum : HasBits num w) (now : immediateDivision? w num den = .ok (some qr)) :
    atomGap iw den num = 0 := by
  unfold atomGap
  simp only [hnum.leads, now, gapAfter_ok]

theorem atomGap_const {n : Int} (hnum : HasBits (const n w) w)
    (later : immediateDivision? w (const n w) den = .ok none) : atomGap iw den (const n w) = 0 := by
  simp only [atomGap, hnum.leads, later, gapAfter_ok]

theorem atomGap_leaf (hnum : HasBits num w) (leaf : num.isLeaf = true)
    (later : immediateDivision? w num den = .ok none) : atomGap iw den num = 0 := by
  cases num with
  | const | recurrence => simp [isLeaf] at leaf
  | nary op es =>
    cases op with
    | sum | product => simp [isLeaf] at leaf
    | _ => simp only [atomGap, hnum.leads, later, gapAfter_ok]
  | _ => simp only [atomGap, hnum.leads, later, gapAfter_ok]

theorem atomGap_recurrence {a b : Expr} (hnum : HasBits (recurrence a b l) w)
    (later : immediateDivision? w (recurrence a b l) den = .ok none) :
    atomGap iw den (recurrence a b l) = atomGap iw den a + atomGap iw den b * iterations l := by
  rw [atomGap]
  simp only [hnum.leads, later, gapAfter_ok]

theorem atomGap_sum {qrs : List (Expr × Expr)} (hnum : HasBits (sum es) w)
    (later : immediateDivision? w (sum es) den = .ok none) (parts : divideTerms iw den es = .ok qrs) :
    atomGap iw den (sum es) = termsGap iw den es - sumGap iw (qrs.map Prod.fst) * reading den -
      sumGap iw (qrs.map Prod.snd) := by
  simp only [atomGap, hnum.leads, later, parts, gapAfter_ok]

theorem atomGap_product {qs : List Expr} (hnum : HasBits (product es) w)
    (later : immediateDivision? w (product es) den = .ok none)
    (found : divideFactor? iw den es = .ok (some qs)) :
    atomGap iw den (product es) = factorGap iw den es - productGap iw qs * reading den := by
  simp only [atomGap, hnum.leads, later, found, gapAfter_ok]

theorem atomGap_product_rest (hnum : HasBits (product es) w)
    (later : immediateDivision? w (product es) den = .ok none)
    (none : divideFactor? iw den es = .ok none) :
    atomGap iw den (product es) = unknownGap iw (product es) den := by
  simp only [atomGap, hnum.leads, later, none, gapAfter_ok]

theorem unknownGap_eq_zero (known : ∀ s b, den ≠ unknown s b) : unknownGap iw num den = 0 := by
  cases den with
  | unknown s b => exact absurd rfl (known s b)
  | _ => rfl

theorem divisionGap_atom (atom : den.naryOp? ≠ some .product) :
    divisionGap iw den num = atomGap iw den num := by
  rw [divisionGap]
  rintro fs rfl
  exact atom rfl

end gaps

section atom

/-- By a denominator that is not taken apart, a division has a quotient and a remainder. -/
def AtomDivides (iw w : Int) (den num : Expr) : Prop :=
  ∃ qr, divideByAtom iw den num = .ok qr ∧ Divides w den (atomGap iw den num) num qr

theorem AtomDivides.rest (hnum : HasBits num w)
    (run : divideByAtom iw den num = .ok (const 0 w, num)) (exact : atomGap iw den num = 0) :
    AtomDivides iw w den num :=
  ⟨_, run, exact ▸ .rest hnum den⟩

/-- An immediate division, or what is found where there is none. -/
theorem AtomDivides.of_later (hnum : HasBits num w)
    (later : immediateDivision? w num den = .ok none → AtomDivides iw w den num) :
    AtomDivides iw w den num := by
  obtain ⟨o, found, divides⟩ := immediateDivision_spec hnum den
  cases o with
  | none => exact later found
  | some qr => exact ⟨qr, divideByAtom_now hnum found, atomGap_now hnum found ▸ divides qr rfl⟩

private theorem divideConst_spec (iw : Int) {n : Int} (hnum : HasBits (const n w) w)
    (later : immediateDivision? w (const n w) den = .ok none) : AtomDivides iw w den (const n w) := by
  have pos := hnum.pos
  have exact : atomGap iw den (const n w) = 0 := atomGap_const hnum later
  cases den with
  | const d b =>
    by_cases nought : d = 0
    · subst nought
      exact .rest hnum (divideByAtom_by_zero pos later) exact
    · refine ⟨_, divideByAtom_consts pos later nought, hasBits_const_bmod pos _,
        hasBits_const_bmod pos _, fun ρ => ?_⟩
      have division := Int.tdiv_mul_add_tmod n d
      simp only [exact, value_const, Word.cast_bmod, Pi.zero_apply, Int.cast_zero, add_zero]
      rw [← Int.cast_mul, ← Int.cast_add, division]
  | _ => exact .rest hnum (divideByAtom_const hnum.pos later (by simp)) exact

theorem Divides.recur {a b : Expr} {g h : Gap} {qa qb : Expr × Expr}
    (start : Divides w den g a qa) (step : Divides w den h b qb) :
    Divides w den (g + h * iterations l) (recurrence a b l)
      (recur qa.1 qb.1 l, recur qa.2 qb.2 l) where
  quotient := hasBits_recur l start.quotient step.quotient
  remainder := hasBits_recur l start.remainder step.remainder
  total ρ := by
    rw [value_recur l start.quotient step.quotient, value_recur l start.remainder step.remainder,
      value_recurrence, start.total ρ, step.total ρ]
    simp only [Pi.add_apply, Pi.mul_apply, iterations_apply]
    push_cast
    ring

theorem lookup_single {a b e r : Expr} (h : lookup [(a, b)] e = some r) : e = a ∧ r = b := by
  simp only [lookup, List.reverse_singleton, List.find?_singleton, Option.map_eq_some_iff] at h
  obtain ⟨p, hp, rfl⟩ := h
  obtain ⟨same, found⟩ := Option.ite_none_right_eq_some.mp hp
  cases found
  exact ⟨(of_decide_eq_true same).symm, rfl⟩

private theorem divideByUnknown_spec (iw : Int) (hnum : HasBits num w) {s : Symbol} {bits : Int}
    (pos : 0 < bits) :
    ∃ qr, divideByUnknown iw w num (unknown s bits) bits = .ok qr ∧
      Divides w (unknown s bits) (unknownGap iw num (unknown s bits)) num qr := by
  have keeps (c : Expr) (hc : HasBits c bits) :
      ∀ e r v, lookup [(unknown s bits, c)] e = some r → HasBits e v → HasBits r v := by
    intro e r v known typed
    obtain ⟨rfl, rfl⟩ := lookup_single known
    rwa [typed.bits_unique (.unknown pos)]
  obtain ⟨r, hr, -⟩ := substitute_renders iw (keeps _ (hasBits_zero pos)) hnum
  obtain ⟨q, hq, renders⟩ := substitute_renders iw (keeps _ (hasBits_const_bmod pos 1)) hnum
  simp only [divideByUnknown, unknownGap, zero_eq pos, one_eq pos, hr, hq, ok_bind, gapAfter_ok]
  split
  · refine ⟨(q, const 0 w), by rw [zero_eq hnum.pos]; rfl, renders.typed, hasBits_zero hnum.pos, ?_⟩
    intro ρ
    have quotient := renders.value_eq ρ
    simp only [value, meaning] at quotient ⊢
    rw [quotient]
    push_cast
    ring
  · exact ⟨_, indivisible_eq hnum.pos num, .rest hnum _⟩

/-- The terms of a sum are divided one by one. -/
theorem divideTerms_spec (parts : ∀ e ∈ es, AtomDivides iw w den e) :
    ∃ qrs, divideTerms iw den es = .ok qrs ∧ qrs.length = es.length ∧
      AllBits (qrs.map Prod.fst) w ∧ AllBits (qrs.map Prod.snd) w ∧
      ∀ ρ, (es.map (value w ρ)).sum =
        ((qrs.map Prod.fst).map (value w ρ)).sum * value w ρ den +
          ((qrs.map Prod.snd).map (value w ρ)).sum +
          (termsGap iw den es ρ : ZMod (Word.modulus w)) := by
  induction es with
  | nil => exact ⟨[], rfl, rfl, AllBits.nil, AllBits.nil, fun ρ => by simp [termsGap]⟩
  | cons e es ih =>
    obtain ⟨qr, hqr, here⟩ := parts e (by simp)
    obtain ⟨qrs, hqrs, length, quotients, remainders, rest⟩ := ih fun f hf => parts f (by simp [hf])
    refine ⟨qr :: qrs, by simp only [divideTerms, hqr, hqrs, ok_bind]; rfl, by simp [length],
      by simp [here.quotient, quotients], by simp [here.remainder, remainders], fun ρ => ?_⟩
    simp only [List.map_cons, List.sum_cons, termsGap, Pi.add_apply, here.total ρ, rest ρ]
    push_cast
    ring

private theorem divideSum_spec (several : 2 ≤ es.length) (typed : AllBits es w)
    (parts : ∀ e ∈ es, AtomDivides iw w den e)
    (later : immediateDivision? w (sum es) den = .ok none) : AtomDivides iw w den (sum es) := by
  have hnum : HasBits (sum es) w := .nary several typed
  obtain ⟨qrs, run, length, quotients, remainders, total⟩ := divideTerms_spec parts
  have filled : qrs ≠ [] := List.ne_nil_of_length_pos (by omega)
  obtain ⟨q, hq, qsame⟩ := sumOf_spec iw (by simpa using filled) quotients
  obtain ⟨r, hr, rsame⟩ := sumOf_spec iw (by simpa using filled) remainders
  refine ⟨_, divideByAtom_sum hnum later run hq hr, qsame.hasBits, rsame.hasBits, fun ρ => ?_⟩
  rw [value_sum, total ρ, qsame.value_single ρ, rsame.value_single ρ, atomGap_sum hnum later run]
  simp only [Pi.sub_apply, Pi.mul_apply, reading_apply]
  push_cast
  rw [show ((den.meaning ρ : Int) : ZMod (Word.modulus w)) = value w ρ den from rfl]
  ring

/-- The first factor that divides is replaced by its quotient. -/
theorem divideFactor_spec (typed : AllBits es w) (parts : ∀ e ∈ es, AtomDivides iw w den e) :
    ∃ o, divideFactor? iw den es = .ok o ∧ ∀ qs ∈ o, AllBits qs w ∧ qs.length = es.length ∧
      ∀ ρ, (es.map (value w ρ)).prod = (qs.map (value w ρ)).prod * value w ρ den +
        (factorGap iw den es ρ : ZMod (Word.modulus w)) := by
  induction es with
  | nil => exact ⟨none, rfl, by simp⟩
  | cons e es ih =>
    obtain ⟨he, hes⟩ := AllBits.cons.mp typed
    obtain ⟨qr, hqr, here⟩ := parts e (by simp)
    obtain ⟨o, ho, rest⟩ := ih hes fun f hf => parts f (by simp [hf])
    simp only [divideFactor?, hqr, ho, ok_bind, factorGap, gapAfter_ok]
    split
    · next exact =>
      refine ⟨_, rfl, fun qs h => ?_⟩
      rw [← Option.some.inj h]
      refine ⟨by simp [here.quotient, hes], by simp, fun ρ => ?_⟩
      have product : (((product es).meaning ρ : Int) : ZMod (Word.modulus w)) =
          (es.map (value w ρ)).prod := value_product w ρ es
      simp only [List.map_cons, List.prod_cons, here.total ρ, value_of_isZero w ρ exact,
        Pi.mul_apply, reading_apply, Int.cast_mul, product]
      ring
    · refine ⟨_, rfl, fun qs h => ?_⟩
      obtain ⟨qs, hqs, rfl⟩ := Option.map_eq_some_iff.mp h
      obtain ⟨qtyped, length, total⟩ := rest qs hqs
      refine ⟨by simp [he, qtyped], by simp [length], fun ρ => ?_⟩
      simp only [List.map_cons, List.prod_cons, total ρ, Pi.mul_apply, reading_apply, Int.cast_mul]
      rw [show ((e.meaning ρ : Int) : ZMod (Word.modulus w)) = value w ρ e from rfl]
      ring

private theorem divideProduct_spec (hden : HasBits den v) (several : 2 ≤ es.length) (typed : AllBits es w)
    (parts : ∀ e ∈ es, AtomDivides iw w den e)
    (later : immediateDivision? w (product es) den = .ok none) : AtomDivides iw w den (product es) := by
  have hnum : HasBits (product es) w := .nary several typed
  obtain ⟨o, run, found⟩ := divideFactor_spec typed parts
  cases o with
  | some qs =>
    obtain ⟨qtyped, length, total⟩ := found qs rfl
    obtain ⟨q, hq, same⟩ := productOf_spec iw (List.ne_nil_of_length_pos (by omega)) qtyped
    refine ⟨_, divideByAtom_product hnum later run hq, same.hasBits, hasBits_zero hnum.pos, fun ρ => ?_⟩
    rw [value_product, total ρ, same.value_single_product ρ, atomGap_product hnum later run]
    simp only [Pi.sub_apply, Pi.mul_apply, reading_apply, value_const]
    push_cast
    rw [show ((den.meaning ρ : Int) : ZMod (Word.modulus w)) = value w ρ den from rfl]
    ring
  | none =>
    have missed : atomGap iw den (product es) = unknownGap iw (product es) den :=
      atomGap_product_rest hnum later run
    cases den with
    | unknown s bits =>
      cases hden with
      | unknown pos =>
        rw [AtomDivides, missed, divideByAtom_product_unknown hnum later run]
        exact divideByUnknown_spec iw hnum pos
    | _ =>
      exact .rest hnum (divideByAtom_product_rest hnum later run (by simp))
        (missed.trans (unknownGap_eq_zero (by simp)))

/-- Division by a denominator that is not taken apart has a quotient and a remainder. -/
theorem divideByAtom_spec (iw : Int) (hnum : HasBits num w) (hden : HasBits den v) :
    AtomDivides iw w den num := by
  induction hnum using HasBits.parts_induction with
  | const pos inRange =>
    exact .of_later (.const pos inRange) fun later => divideConst_spec iw (.const pos inRange) later
  | sum several parts ih =>
    exact .of_later (.nary several parts) fun later => divideSum_spec several parts ih later
  | product several parts ih =>
    exact .of_later (.nary several parts) fun later => divideProduct_spec hden several parts ih later
  | recurrence start step first second =>
    refine .of_later (.recurrence start step) fun later => ?_
    obtain ⟨qa, hqa, first⟩ := first
    obtain ⟨qb, hqb, second⟩ := second
    refine ⟨_, divideByAtom_recurrence (.recurrence start step) later hqa hqb, ?_⟩
    rw [atomGap_recurrence (.recurrence start step) later]
    exact first.recur second
  | leaf typed whole =>
    exact .of_later typed fun later =>
      .rest typed (divideByAtom_leaf typed whole later) (atomGap_leaf typed whole later)

end atom

section factors

/-- Divisions by several factors one after the other divide by their product. -/
private theorem divideByAll_spec {factors : List Expr}
    (parts : ∀ f ∈ factors, ∀ {num}, HasBits num w → ∃ qr, divideBy iw f num = .ok qr ∧
      Divides w f (divisionGap iw f num) num qr) (hnum : HasBits num w) :
    ∃ o, divideByAll? iw factors num = .ok o ∧ ∀ q ∈ o, HasBits q w ∧
      ∀ ρ, value w ρ num = value w ρ q * (factors.map (value w ρ)).prod +
        (chainGap iw factors num ρ : ZMod (Word.modulus w)) := by
  induction factors generalizing num with
  | nil =>
    refine ⟨some num, rfl, fun q h => ?_⟩
    obtain rfl := Option.some.inj h
    exact ⟨hnum, fun ρ => by simp [chainGap]⟩
  | cons f factors ih =>
    obtain ⟨qr, hqr, here⟩ := parts f (by simp) hnum
    obtain ⟨o, ho, rest⟩ := ih (fun g hg => parts g (by simp [hg])) here.quotient
    simp only [divideByAll?, chainGap, hqr, ok_bind, gapAfter_ok]
    split
    · next exact =>
      refine ⟨o, ho, fun q h => ⟨(rest q h).1, fun ρ => ?_⟩⟩
      have after := (rest q h).2 ρ
      simp only [List.map_cons, List.prod_cons, Pi.add_apply, Pi.mul_apply, reading_apply,
        here.total ρ, value_of_isZero w ρ exact, after]
      push_cast
      rw [show ((f.meaning ρ : Int) : ZMod (Word.modulus w)) = value w ρ f from rfl]
      ring
    · exact ⟨none, rfl, by simp⟩

/-- Division of well-formed expressions has a quotient and a remainder of the width of the
numerator, which make up the numerator but for the gap. -/
theorem divideBy_spec (iw : Int) (hden : HasBits den v) (hnum : HasBits num w) :
    ∃ qr, divideBy iw den num = .ok qr ∧ Divides w den (divisionGap iw den num) num qr := by
  induction hden using HasBits.divisor_induction generalizing num with
  | atom typed whole =>
    rw [divideBy_atom whole, divisionGap_atom whole]
    exact divideByAtom_spec iw hnum typed
  | @product es v several parts ih =>
    obtain ⟨o, now, immediate⟩ := immediateDivision_spec hnum (product es)
    obtain ⟨o', run, after⟩ := divideByAll_spec ih hnum
    simp only [divisionGap, hnum.leads, now, run, gapAfter_ok]
    cases o with
    | some qr => exact ⟨qr, divideBy_now hnum now, immediate qr rfl⟩
    | none =>
      cases o' with
      | some q =>
        refine ⟨_, divideBy_product hnum now run, (after q rfl).1, hasBits_zero hnum.pos, fun ρ => ?_⟩
        simpa using (after q rfl).2 ρ
      | none => exact ⟨_, divideBy_product_rest hnum now run, .rest hnum _⟩

end factors

end ShapeRecovery.Expr
