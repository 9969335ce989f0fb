import ShapeRecovery.Proofs.Expr.Division

namespace ShapeRecovery.Expr

variable {iw w v : Int} {P : Expr → Prop} {num den : Expr} {qr : Expr × Expr}

private theorem Divides.of_atom_run (hnum : HasBits num w) (hden : HasBits den v)
    (run : divideByAtom iw den num = .ok qr) : Divides w den (atomGap iw den num) num qr := by
  obtain ⟨qr', run', divides⟩ := divideByAtom_spec iw hnum hden
  rw [run] at run'
  cases run'
  exact divides

theorem Divides.of_run (hnum : HasBits num w) (hden : HasBits den v)
    (run : divideBy iw den num = .ok qr) : Divides w den (divisionGap iw den num) num qr := by
  obtain ⟨qr', run', divides⟩ := divideBy_spec iw hden hnum
  rw [run] at run'
  cases run'
  exact divides

/-- A division by a denominator that is not taken apart is immediate, or goes on. -/
theorem divideByAtom_run_cases (hnum : HasBits num w) (run : divideByAtom iw den num = .ok qr) :
    immediateDivision? w num den = .ok (some qr) ∨ immediateDivision? w num den = .ok none := by
  obtain ⟨o, found⟩ := immediateDivision_total hnum.pos num den
  cases o with
  | none => exact .inr found
  | some now =>
    cases (divideByAtom_now hnum found).symm.trans run
    exact .inl found

/-- A property that each of several divisions keeps is kept by all of them. -/
theorem divideByAll_keeps {factors : List Expr} {q : Expr}
    (each : ∀ f ∈ factors, ∀ {num qr}, HasBits num w → P num → divideBy iw f num = .ok qr →
      HasBits qr.1 w ∧ P qr.1)
    (hnum : HasBits num w) (h : P num) (run : divideByAll? iw factors num = .ok (some q)) : P q := by
  induction factors generalizing num with
  | nil =>
    cases run
    exact h
  | cons f factors ih =>
    obtain ⟨⟨q', r⟩, here, run⟩ := bind_eq_ok.mp run
    dsimp only at run
    split at run
    · obtain ⟨typed, kept⟩ := each f (by simp) hnum h here
      exact ih (fun g hg => each g (by simp [hg])) typed kept run
    · cases run

namespace Hereditary

variable (closed : Hereditary iw P)
include closed

theorem ofInt {n : Int} {r : Expr} (run : Expr.ofInt n w = .ok r) : P r := by
  obtain ⟨v, -, made⟩ := bind_eq_ok.mp run
  cases made
  exact closed.const v w

/-- All of the dividend remains. -/
theorem rest (h : P num) (whole : Expr.divideByAtom iw den num = .ok (.const 0 w, num))
    (run : Expr.divideByAtom iw den num = .ok qr) : P qr.1 ∧ P qr.2 := by
  cases whole.symm.trans run
  exact ⟨closed.const 0 w, h⟩

theorem immediateDivision (h : P num) (run : immediateDivision? w num den = .ok (some qr)) :
    P qr.1 ∧ P qr.2 := by
  rcases immediateDivision_cases run with ⟨-, hq, hr⟩ | ⟨-, hq, hr⟩ | ⟨-, same, hr⟩
  · exact ⟨closed.ofInt hq, closed.ofInt hr⟩
  · exact ⟨closed.ofInt hq, closed.ofInt hr⟩
  · exact ⟨same ▸ h, closed.ofInt hr⟩

/-- The unknown value is replaced by constants. -/
theorem divideByUnknown (hnum : HasBits num w) (h : P num) {s : Symbol} {bits : Int} (pos : 0 < bits)
    (run : Expr.divideByUnknown iw w num (unknown s bits) bits = .ok qr) : P qr.1 ∧ P qr.2 := by
  have subst {c n : Expr} {m : Int} (made : Expr.ofInt m bits = .ok c)
      (run : Expr.substitute iw (lookup [(unknown s bits, c)]) num = .ok n) : P n := by
    have replaced : ∀ e r, lookup [(unknown s bits, c)] e = some r → P r := by
      intro e r known
      rw [(lookup_single known).2]
      exact closed.ofInt made
    have keeps : ∀ e r v, lookup [(unknown s bits, c)] e = some r → HasBits e v → HasBits r v := by
      intro e r v known typed
      obtain ⟨rfl, rfl⟩ := lookup_single known
      rw [typed.bits_unique (.unknown pos)]
      rw [ofInt_eq pos] at made
      cases made
      exact hasBits_const_bmod pos m
    obtain ⟨n', run', -, inherited⟩ := closed.substitute keeps replaced hnum h
    rw [run] at run'
    cases run'
    exact inherited
  obtain ⟨nought, hnought, run⟩ := bind_eq_ok.mp run
  obtain ⟨r, hr, run⟩ := bind_eq_ok.mp run
  split at run
  · obtain ⟨unit, hunit, run⟩ := bind_eq_ok.mp run
    obtain ⟨q, hq, run⟩ := bind_eq_ok.mp run
    obtain ⟨z, hz, made⟩ := bind_eq_ok.mp run
    cases made
    exact ⟨subst hunit hq, closed.ofInt hz⟩
  · rw [indivisible_eq hnum.pos] at run
    cases run
    exact ⟨closed.const 0 w, h⟩

/-- What is known of the quotient and the remainder of one part of the dividend. -/
def Kept (iw w : Int) (P : Expr → Prop) (den e : Expr) : Prop :=
  ∀ {qr}, Expr.divideByAtom iw den e = .ok qr →
    (HasBits qr.1 w ∧ HasBits qr.2 w) ∧ P qr.1 ∧ P qr.2

private theorem divideSum {es : List Expr} (hnum : HasBits (.sum es) w)
    (later : immediateDivision? w (.sum es) den = .ok none) (each : ∀ e ∈ es, Kept iw w P den e)
    (run : Expr.divideByAtom iw den (.sum es) = .ok qr) : P qr.1 ∧ P qr.2 := by
  have some : es ≠ [] := List.ne_nil_of_length_pos (by
    have several := (HasBits.nary_iff.mp hnum).1
    omega)
  rw [divideByAtom_sum_later hnum later, divideTerms_eq_mapM] at run
  obtain ⟨qrs, hqrs, run⟩ := bind_eq_ok.mp run
  obtain ⟨q, hq, run⟩ := bind_eq_ok.mp run
  obtain ⟨r, hr, made⟩ := bind_eq_ok.mp run
  cases made
  have parts := mapM_eq_ok_iff.mp hqrs
  have found : ∀ p ∈ qrs, (HasBits p.1 w ∧ HasBits p.2 w) ∧ P p.1 ∧ P p.2 := by
    intro p hp
    obtain ⟨e, he, divided⟩ := exists_of_forall₂ parts hp
    exact each e he divided
  have filled : qrs ≠ [] := by
    intro none
    rw [none] at parts
    exact some (List.forall₂_nil_right_iff.mp parts)
  constructor
  · refine closed.sum (w := w) (by simpa using filled) ?_ ?_ hq
    · exact List.forall_mem_map.mpr fun p hp => (found p hp).1.1
    · exact List.forall_mem_map.mpr fun p hp => (found p hp).2.1
  · refine closed.sum (w := w) (by simpa using filled) ?_ ?_ hr
    · exact List.forall_mem_map.mpr fun p hp => (found p hp).1.2
    · exact List.forall_mem_map.mpr fun p hp => (found p hp).2.2

private theorem divideProduct {es : List Expr} (hnum : HasBits (.product es) w) (hden : HasBits den v)
    (later : immediateDivision? w (.product es) den = .ok none) (h : P (.product es))
    (each : ∀ e ∈ es, Kept iw w P den e)
    (run : Expr.divideByAtom iw den (.product es) = .ok qr) : P qr.1 ∧ P qr.2 := by
  have typed : AllBits es w := (HasBits.nary_iff.mp hnum).2
  have inside : ∀ e ∈ es, P e := closed.below h
  rw [divideByAtom_product_later hnum later] at run
  obtain ⟨o, divided, run⟩ := bind_eq_ok.mp run
  cases o with
  | some qs =>
    obtain ⟨q, hq, run⟩ := bind_eq_ok.mp run
    obtain ⟨r, hr, made⟩ := bind_eq_ok.mp run
    cases made
    refine ⟨?_, closed.ofInt hr⟩
    -- One factor is replaced by its quotient.
    obtain ⟨before, e, after, q', rest, rfl, rfl, here⟩ := divideFactor_run divided
    obtain ⟨⟨qtyped, -⟩, kept, -⟩ := each e (by simp) here
    simp only [AllBits, List.mem_append, List.mem_cons, or_imp, forall_and, forall_eq] at typed inside
    refine closed.product (w := w) (by simp) ?_ ?_ hq
    · simpa [AllBits, or_imp, forall_and] using ⟨typed.1, qtyped, typed.2.2⟩
    · simpa [or_imp, forall_and] using ⟨inside.1, kept, inside.2.2⟩
  | none =>
    cases den with
    | unknown s bits =>
      cases hden with
      | unknown pos => exact closed.divideByUnknown hnum h pos run
    | _ =>
      rw [indivisible_eq hnum.pos] at run
      cases run
      exact ⟨closed.const 0 w, h⟩

private theorem divideConst {n : Int} (hnum : HasBits (.const n w) w)
    (later : immediateDivision? w (.const n w) den = .ok none)
    (run : Expr.divideByAtom iw den (.const n w) = .ok qr) : P qr.1 ∧ P qr.2 := by
  have h : P (.const n w) := closed.const n w
  cases den with
  | const d b =>
    by_cases nought : d = 0
    · subst nought
      exact closed.rest h (divideByAtom_by_zero hnum.pos later) run
    · cases (divideByAtom_consts hnum.pos later nought).symm.trans run
      exact ⟨closed.const _ w, closed.const _ w⟩
  | _ => exact closed.rest h (divideByAtom_const hnum.pos later (by simp)) run

/-- Division by a denominator that is not taken apart keeps the property. -/
theorem divideByAtom (hden : HasBits den v) (hnum : HasBits num w) (h : P num)
    (run : Expr.divideByAtom iw den num = .ok qr) : P qr.1 ∧ P qr.2 := by
  have of_later {num : Expr} {w : Int} {qr : Expr × Expr} (hnum : HasBits num w) (h : P num)
      (run : Expr.divideByAtom iw den num = .ok qr)
      (later : immediateDivision? w num den = .ok none → P qr.1 ∧ P qr.2) : P qr.1 ∧ P qr.2 :=
    (divideByAtom_run_cases hnum run).elim (closed.immediateDivision h) later
  have kept {e : Expr} {w : Int} (typed : HasBits e w)
      (ih : ∀ {qr}, Expr.divideByAtom iw den e = .ok qr → P qr.1 ∧ P qr.2) : Kept iw w P den e := by
    intro qr run
    have divides := Divides.of_atom_run typed hden run
    exact ⟨⟨divides.quotient, divides.remainder⟩, ih run⟩
  induction hnum using HasBits.parts_induction generalizing qr with
  | const pos inRange =>
    exact of_later (.const pos inRange) h run fun later => closed.divideConst (.const pos inRange) later run
  | sum several parts ih =>
    refine of_later (.nary several parts) h run fun later => ?_
    exact closed.divideSum (.nary several parts) later
      (fun e he => kept (parts e he) (ih e he (closed.below h e he))) run
  | product several parts ih =>
    refine of_later (.nary several parts) h run fun later => ?_
    exact closed.divideProduct (.nary several parts) hden later h
      (fun e he => kept (parts e he) (ih e he (closed.below h e he))) run
  | @recurrence a b l w start step first second =>
    refine of_later (.recurrence start step) h run fun later => ?_
    obtain ⟨qa, hqa, -⟩ := divideByAtom_spec iw start hden
    obtain ⟨qb, hqb, -⟩ := divideByAtom_spec iw step hden
    cases (divideByAtom_recurrence (.recurrence start step) later hqa hqb).symm.trans run
    have first := first (closed.below h a (by simp [operands])) hqa
    have second := second (closed.below h b (by simp [operands])) hqb
    exact ⟨closed.recurrence h first.1 second.1, closed.recurrence h first.2 second.2⟩
  | leaf typed whole =>
    exact of_later typed h run fun later => closed.rest h (divideByAtom_leaf typed whole later) run

/-- Division keeps the property. -/
theorem divideBy (hden : HasBits den v) (hnum : HasBits num w) (h : P num)
    (run : Expr.divideBy iw den num = .ok qr) : P qr.1 ∧ P qr.2 := by
  induction hden using HasBits.divisor_induction generalizing num qr with
  | atom typed whole =>
    rw [divideBy_atom whole] at run
    exact closed.divideByAtom typed hnum h run
  | @product es v several parts ih =>
    obtain ⟨o, found⟩ := immediateDivision_total hnum.pos num (.product es)
    cases o with
    | some now =>
      cases (divideBy_now hnum found).symm.trans run
      exact closed.immediateDivision h found
    | none =>
      simp only [Expr.divideBy, hnum.leads, found, ok_bind] at run
      obtain ⟨o, divided, run⟩ := bind_eq_ok.mp run
      cases o with
      | some q =>
        obtain ⟨r, hr, made⟩ := bind_eq_ok.mp run
        cases made
        refine ⟨divideByAll_keeps ?_ hnum h divided, closed.ofInt hr⟩
        intro f hf num qr hnum h run
        exact ⟨(Divides.of_run hnum (parts f hf) run).quotient, (ih f hf hnum h run).1⟩
      | none =>
        rw [indivisible_eq hnum.pos] at run
        cases run
        exact ⟨closed.const 0 w, h⟩

/-- A division ends in a quotient and a remainder of the width of the dividend, with the property of
the dividend. -/
theorem quotRem (hnum : HasBits num w) (hden : HasBits den v) (h : P num) :
    ∃ q r, Expr.quotRem iw num den = .ok (q, r) ∧ (HasBits q w ∧ P q) ∧ HasBits r w ∧ P r := by
  obtain ⟨⟨q, r⟩, run, divides⟩ := divideBy_spec iw hden hnum
  obtain ⟨hq, hr⟩ := closed.divideBy hden hnum h run
  exact ⟨q, r, run, ⟨divides.quotient, hq⟩, divides.remainder, hr⟩

end Hereditary

end ShapeRecovery.Expr
