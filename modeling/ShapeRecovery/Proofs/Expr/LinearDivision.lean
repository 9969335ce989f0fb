import ShapeRecovery.Proofs.Expr.DividedDegree

namespace ShapeRecovery.Expr

/-- `ρ`, but with `t` for an unknown value. -/
def Valuation.put (ρ : Valuation) (s : Symbol) (b t : Int) : Valuation :=
  { ρ with unknown := fun s' b' => if s' = s ∧ b' = b then t else ρ.unknown s' b' }

variable {L : Loop → Prop} {ρ : Valuation} {s : Symbol} {b t : Int} {num den e : Expr} {es : List Expr}
  {iw w v : Int}

@[simp] theorem Valuation.put_count : (ρ.put s b t).count = ρ.count := rfl

@[simp] theorem Valuation.put_overZero : (ρ.put s b t).overZero = ρ.overZero := rfl

@[simp] theorem Valuation.put_self (ρ : Valuation) (s : Symbol) (b : Int) :
    ρ.put s b (ρ.unknown s b) = ρ := by
  have same : (fun s' b' => if s' = s ∧ b' = b then ρ.unknown s b else ρ.unknown s' b') = ρ.unknown := by
    funext s' b'
    split
    · next same => rw [same.1, same.2]
    · rfl
  simp only [put, same]

section linear

/-- What has degree zero does not see the unknown value. -/
theorem meaning_put_of_degree (t : Int) :
    ∀ e, degree s b e = 0 → e.meaning (ρ.put s b t) = e.meaning ρ
  | const .., _ | uncomputable, _ => rfl
  | unknown s' b', free => by
    have other : ¬ (s' = s ∧ b' = b) := by
      intro same
      simp [degree, same] at free
    simp only [meaning, Valuation.put, if_neg other]
  | nary op es, free => by
    have each : ∀ e ∈ es, e.meaning (ρ.put s b t) = e.meaning ρ := by
      intro e he
      apply meaning_put_of_degree t e
      have low : degree s b e ≤ degree s b (nary op es) := by
        cases op with
        | sum => exact degree_le_of_term he
        | product => exact degree_product.ge.trans' (List.single_le_sum (by simp) _ (List.mem_map_of_mem he))
        | signedMax | unsignedMax =>
          have inside := foldr_max_le.mp le_rfl _ (List.mem_map_of_mem (f := degree s b) he)
          simp only [degree, degrees_eq_map]
          omega
      omega
    have same : meanings (ρ.put s b t) es = meanings ρ es := by
      rw [meanings_eq_map, meanings_eq_map]
      exact List.map_congr_left each
    cases op <;> simp only [meaning, same]
  | quotient e f, free => by
    simp only [degree] at free
    have num := meaning_put_of_degree t e (by omega)
    have den := meaning_put_of_degree t f (by omega)
    simp only [meaning, num, den, Valuation.put_overZero]
  | cast kind e w, free => by
    simp only [degree] at free
    have inner := meaning_put_of_degree t e (by omega)
    cases kind <;> simp only [meaning, inner]
  | recurrence e f l, free => by
    simp only [degree] at free
    have start := meaning_put_of_degree t e (by omega)
    have step := meaning_put_of_degree t f (by omega)
    simp only [meaning, start, step, Valuation.put_count]

/-- A number that depends linearly on another one. -/
def LinearIn (f : Int → Int) : Prop := ∃ c d, ∀ t, f t = c + d * t

theorem LinearIn.const (c : Int) : LinearIn fun _ => c := ⟨c, 0, by simp⟩

theorem LinearIn.add {f g : Int → Int} (first : LinearIn f) (second : LinearIn g) :
    LinearIn fun t => f t + g t := by
  obtain ⟨c, d, hf⟩ := first
  obtain ⟨c', d', hg⟩ := second
  exact ⟨c + c', d + d', fun t => by simp only [hf, hg]; ring⟩

theorem LinearIn.mul_const {f : Int → Int} (linear : LinearIn f) (k : Int) : LinearIn fun t => f t * k := by
  obtain ⟨c, d, hf⟩ := linear
  exact ⟨c * k, d * k, fun t => by simp only [hf]; ring⟩

private theorem linearIn_of_degree (free : degree s b e = 0) : LinearIn fun t => e.meaning (ρ.put s b t) := by
  simpa only [meaning_put_of_degree _ e free] using LinearIn.const (e.meaning ρ)

/-- Of linear terms the total is linear. -/
theorem LinearIn.sum {f : Expr → Int → Int} (each : ∀ e ∈ es, LinearIn (f e)) :
    LinearIn fun t => (es.map fun e => f e t).sum := by
  induction es with
  | nil => exact .const 0
  | cons e es ih =>
    obtain ⟨here, rest⟩ := List.forall_mem_cons.mp each
    exact here.add (ih rest)

/-- Of factors one of which at most sees the unknown value, the product is linear if this one is. -/
private theorem linearIn_product (each : ∀ e ∈ es, degree s b e ≤ 1 → LinearIn fun t => e.meaning (ρ.put s b t))
    (low : (es.map (degree s b)).sum ≤ 1) :
    LinearIn fun t => (es.map fun e => e.meaning (ρ.put s b t)).prod := by
  induction es with
  | nil => exact .const 1
  | cons e es ih =>
    obtain ⟨here, rest⟩ := List.forall_mem_cons.mp each
    simp only [List.map_cons, List.sum_cons, List.prod_cons] at low ⊢
    by_cases free : degree s b e = 0
    · have whole := (ih rest (by omega)).mul_const (e.meaning ρ)
      simpa only [meaning_put_of_degree _ e free, mul_comm] using whole
    · have others : ∀ f ∈ es, degree s b f = 0 := by
        intro f hf
        have inside := List.single_le_sum (by simp) _ (List.mem_map_of_mem (f := degree s b) hf)
        omega
      have fixed (t : Int) : (es.map fun e => e.meaning (ρ.put s b t)) = es.map fun e => e.meaning ρ :=
        List.map_congr_left fun f hf => meaning_put_of_degree t f (others f hf)
      simpa only [fixed] using (here (by omega)).mul_const _

/-- What has degree one is linear in the unknown value. -/
theorem linearIn_meaning : ∀ e, degree s b e ≤ 1 → LinearIn fun t => e.meaning (ρ.put s b t)
  | unknown s' b', _ => by
    by_cases same : s' = s ∧ b' = b
    · exact ⟨0, 1, fun t => by simp [meaning, Valuation.put, same]⟩
    · simpa only [meaning, Valuation.put, if_neg same] using LinearIn.const _
  | nary .sum es, low => by
    have each : ∀ e ∈ es, LinearIn fun t => e.meaning (ρ.put s b t) := fun e he =>
      linearIn_meaning e ((degree_le_of_term he).trans low)
    simpa only [meaning, meanings_eq_map, List.sum] using LinearIn.sum each
  | nary .product es, low => by
    have each : ∀ e ∈ es, degree s b e ≤ 1 → LinearIn fun t => e.meaning (ρ.put s b t) := fun e he low =>
      linearIn_meaning e low
    simpa only [meaning, meanings_eq_map, List.prod] using linearIn_product each (degree_product.ge.trans low)
  | recurrence e f l, low => by
    obtain ⟨start, step⟩ := degree_recurrence_le.mp low
    exact (linearIn_meaning e start).add ((linearIn_meaning f step).mul_const (ρ.count l))
  | const v w, _ => .const v
  | uncomputable, _ => .const 0
  | quotient .., low | cast .., low | nary .signedMax _, low | nary .unsignedMax _, low =>
    linearIn_of_degree (by simp only [degree] at low ⊢; omega)

end linear

section unknownGap

/-- A constant in the place of the unknown value is read as this value. -/
theorem interprets_put {c : Int} (typed : HasBits (const c b) b)
    (same : (c : ZMod (Word.modulus b)) = (t : ZMod (Word.modulus b))) :
    Interprets L ρ (ρ.put s b t) (lookup [(unknown s b, const c b)]) where
  replaced e r v known typed' _ := by
    obtain ⟨rfl, rfl⟩ := lookup_single known
    cases typed'
    exact ⟨typed, within_const c b, by simpa [value, meaning, Valuation.put] using same⟩
  unknown s' b' fresh := by
    have other : ¬ (s' = s ∧ b' = b) := by
      rintro ⟨rfl, rfl⟩
      simp [lookup] at fresh
    simp only [Valuation.put, if_neg other]
  count := rfl
  overZero := rfl

/-- A product that is linear in an unknown value and vanishes with it is a multiple of it. -/
private theorem unknownGap_of_linear (inStep : InStep L ρ) (hnum : HasBits num w) (within : Within L num)
    (low : degree s w num ≤ 1) :
    (unknownGap iw num (unknown s w) ρ : ZMod (Word.modulus w)) = 0 := by
  have pos := hnum.pos
  have keeps {c : Int} (typed : HasBits (const c w) w) (e r : Expr) (v : Int)
      (known : lookup [(unknown s w, const c w)] e = some r) (typed' : HasBits e v) : HasBits r v := by
    obtain ⟨rfl, rfl⟩ := lookup_single known
    rwa [typed'.bits_unique (.unknown pos)]
  obtain ⟨r, hr, vanishes⟩ := substitute_yields iw inStep
    (interprets_put (s := s) (t := 0) (hasBits_zero pos) rfl) hnum within
  have unit := hasBits_const_bmod pos 1
  have atOne := meaningAfter_of_inStep iw inStep (keeps unit)
    (interprets_put (s := s) (t := 1) unit (Word.cast_bmod 1 _)) hnum within
  obtain ⟨c, d, line⟩ : ∃ c d, ∀ t, num.meaning (ρ.put s w t) = c + d * t := linearIn_meaning num low
  have here : num.meaning ρ = c + d * ρ.unknown s w := by simpa using line (ρ.unknown s w)
  simp only [unknownGap, zero_eq pos, one_eq pos, hr, gapAfter_ok]
  split
  · next nought =>
    have start : (c : ZMod (Word.modulus w)) = 0 := by
      have zero := vanishes.value_eq.symm.trans (value_of_isZero w ρ nought)
      simpa [value, line 0] using zero
    have slope : (meaningAfter iw (lookup [(unknown s w, const ((1 : Int).bmod (Word.modulus w)) w)]) ρ num :
        ZMod (Word.modulus w)) = d := by
      rw [atOne, value, line 1]
      simp [start]
    push_cast
    rw [slope, here]
    push_cast
    rw [start]
    ring
  · simp

end unknownGap

section atomGap

/-- A gap opens only where a division is not immediate. -/
theorem atomGap_of_later (hnum : HasBits num w)
    (later : immediateDivision? w num den = .ok none →
      (atomGap iw den num ρ : ZMod (Word.modulus w)) = 0) :
    (atomGap iw den num ρ : ZMod (Word.modulus w)) = 0 := by
  obtain ⟨o, found⟩ := immediateDivision_total hnum.pos num den
  cases o with
  | none => exact later found
  | some qr => rw [atomGap_now hnum found, Pi.zero_apply, Int.cast_zero]

private theorem termsGap_eq_zero (each : ∀ e ∈ es, (atomGap iw den e ρ : ZMod (Word.modulus w)) = 0) :
    (termsGap iw den es ρ : ZMod (Word.modulus w)) = 0 := by
  induction es with
  | nil => simp [termsGap]
  | cons e es ih =>
    obtain ⟨here, rest⟩ := List.forall_mem_cons.mp each
    simp [termsGap, here, ih rest]

private theorem factorGap_eq_zero (each : ∀ e ∈ es, (atomGap iw den e ρ : ZMod (Word.modulus w)) = 0) :
    (factorGap iw den es ρ : ZMod (Word.modulus w)) = 0 := by
  induction es with
  | nil => simp [factorGap]
  | cons e es ih =>
    obtain ⟨here, rest⟩ := List.forall_mem_cons.mp each
    unfold factorGap
    cases divideByAtom iw den e with
    | error _ => simp [gapAfter]
    | ok qr =>
      rw [gapAfter_ok]
      split
      · simp [here]
      · simp [ih rest]

private theorem divideTerms_within {qrs : List (Expr × Expr)} (hden : HasBits den v) (typed : AllBits es w)
    (within : ∀ e ∈ es, Within L e) (run : divideTerms iw den es = .ok qrs) :
    ∀ qr ∈ qrs, Within L qr.1 ∧ Within L qr.2 := by
  rw [divideTerms_eq_mapM] at run
  intro qr mem
  obtain ⟨e, he, divided⟩ := exists_of_forall₂ (mapM_eq_ok_iff.mp run) mem
  exact (hereditary_within iw L).divideByAtom hden (typed e he) (within e he) divided

private theorem divideFactor_within {qs : List Expr} (hden : HasBits den v) (typed : AllBits es w)
    (within : ∀ e ∈ es, Within L e) (run : divideFactor? iw den es = .ok (some qs)) :
    ∀ q ∈ qs, Within L q := by
  obtain ⟨before, e, after, q, r, rfl, rfl, divided⟩ := divideFactor_run run
  obtain ⟨first, here, rest⟩ : (∀ f ∈ before, Within L f) ∧ Within L e ∧ ∀ f ∈ after, Within L f := by
    simpa [or_imp, forall_and] using within
  have kept := (hereditary_within iw L).divideByAtom hden (typed e (by simp)) here divided
  simpa [or_imp, forall_and] using ⟨first, kept.1, rest⟩

/-- If no factor is divisible by an unknown value, it is none of them. -/
private theorem ne_of_divideFactor (pos : 0 < w) (run : divideFactor? iw den es = .ok none)
    (typed : AllBits es w) : ∀ e ∈ es, e ≠ den := by
  induction es with
  | nil => simp
  | cons e es ih =>
    obtain ⟨he, hes⟩ := AllBits.cons.mp typed
    obtain ⟨⟨q, r⟩, here, run⟩ := bind_eq_ok.mp run
    dsimp only at run
    split at run
    · cases run
    · next left =>
      obtain ⟨o, rest, run⟩ := bind_eq_ok.mp run
      injection run with run
      have none : o = none := Option.map_eq_none_iff.mp run
      refine List.forall_mem_cons.mpr ⟨?_, ih (none ▸ rest) hes⟩
      rintro rfl
      cases (divideByAtom_now he (immediateDivision_self pos e)).symm.trans here
      exact left rfl

section inStep

variable (inStep : InStep L ρ) (hden : HasBits den w) (several : 2 ≤ es.length) (typed : AllBits es w)
  (within : ∀ e ∈ es, Within L e)
  (each : ∀ e ∈ es, (atomGap iw den e ρ : ZMod (Word.modulus w)) = 0)
include inStep hden several typed within each

private theorem atomGap_sum_inStep (later : immediateDivision? w (sum es) den = .ok none) :
    (atomGap iw den (sum es) ρ : ZMod (Word.modulus w)) = 0 := by
  obtain ⟨qrs, run, length, quotients, remainders, -⟩ :=
    divideTerms_spec fun e he => divideByAtom_spec iw (typed e he) hden
  have some : qrs ≠ [] := List.ne_nil_of_length_pos (by omega)
  have kept := divideTerms_within hden typed within run
  have noGap {fs : List Expr} (some : fs ≠ []) (typed : AllBits fs w) (within : ∀ f ∈ fs, Within L f) :
      sumGap iw fs ρ = 0 :=
    sumGap_eq_zero iw some typed (fun f hf => ((within f hf).builtOver (typed f hf)).weaken) inStep
  have gapQ := noGap (by simpa using some) quotients (List.forall_mem_map.mpr fun qr mem => (kept qr mem).1)
  have gapR := noGap (by simpa using some) remainders (List.forall_mem_map.mpr fun qr mem => (kept qr mem).2)
  rw [atomGap_sum (.nary several typed) later run]
  simp [termsGap_eq_zero each, gapQ, gapR]

private theorem atomGap_product_inStep (low : ∀ s, den = unknown s w → residualDegree s w (product es) ≤ 1)
    (later : immediateDivision? w (product es) den = .ok none) :
    (atomGap iw den (product es) ρ : ZMod (Word.modulus w)) = 0 := by
  have hnum : HasBits (product es) w := .nary several typed
  obtain ⟨o, run, found⟩ := divideFactor_spec typed fun e he => divideByAtom_spec iw (typed e he) hden
  cases o with
  | none =>
    rw [atomGap_product_rest hnum later run]
    have other := ne_of_divideFactor hden.pos run typed
    cases den with
    | unknown s b =>
      cases hden
      refine unknownGap_of_linear inStep hnum (within_nary.mpr within) ?_
      have degrees : es.map (degree s w) = es.map (factorDegree s w) :=
        List.map_congr_left fun e he => (factorDegree_of_ne (other e he)).symm
      rw [degree_product, degrees, ← residualDegree_product]
      exact low s rfl
    | _ => simp [unknownGap_eq_zero]
  | some qs =>
    obtain ⟨qtyped, length, -⟩ := found qs rfl
    have some : qs ≠ [] := List.ne_nil_of_length_pos (by omega)
    have kept := divideFactor_within hden typed within run
    have gap := productGap_eq_zero iw some qtyped
      (fun q hq => ((kept q hq).builtOver (qtyped q hq)).weaken) inStep
    rw [atomGap_product hnum later run]
    simp [factorGap_eq_zero each, gap]

end inStep

/-- Where loops are in step, a division by what is not taken apart misses nothing, unless by an unknown
value that is nonlinear in the rest of the dividend. -/
theorem atomGap_inStep (inStep : InStep L ρ) (hden : HasBits den w) (hnum : HasBits num w)
    (within : Within L num) (low : ∀ s, den = unknown s w → residualDegree s w num ≤ 1) :
    (atomGap iw den num ρ : ZMod (Word.modulus w)) = 0 := by
  induction hnum using HasBits.parts_induction with
  | const pos inRange =>
    refine atomGap_of_later (.const pos inRange) fun later => ?_
    simp [atomGap_const (.const pos inRange) later]
  | @sum es w several parts ih =>
    have inside := within_nary.mp within
    refine atomGap_of_later (.nary several parts) fun later => ?_
    refine atomGap_sum_inStep inStep hden several parts inside (fun e he => ?_) later
    exact ih e he hden (inside e he) fun s same => residualDegree_sum_le.mp (low s same) e he
  | @product es w several parts ih =>
    have inside := within_nary.mp within
    refine atomGap_of_later (.nary several parts) fun later => ?_
    refine atomGap_product_inStep inStep hden several parts inside (fun e he => ?_) low later
    refine ih e he hden (inside e he) fun s same => ?_
    have part := List.single_le_sum (by simp) _ (List.mem_map_of_mem (f := factorDegree s w) he)
    have whole := low s same
    rw [residualDegree_product] at whole
    exact ((residualDegree_le_factorDegree e).trans part).trans whole
  | @recurrence a b l w start step first second =>
    obtain ⟨-, withinStart, withinStep⟩ := within_recurrence.mp within
    refine atomGap_of_later (.recurrence start step) fun later => ?_
    rw [atomGap_recurrence (.recurrence start step) later]
    have start := first hden withinStart fun s same => (residualDegree_recurrence_le.mp (low s same)).1
    have step := second hden withinStep fun s same => (residualDegree_recurrence_le.mp (low s same)).2
    simp [start, step]
  | leaf typed whole =>
    refine atomGap_of_later typed fun later => ?_
    simp [atomGap_leaf typed whole later]

end atomGap

end ShapeRecovery.Expr
