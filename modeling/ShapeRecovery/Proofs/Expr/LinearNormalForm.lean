import ShapeRecovery.Proofs.Expr.Coordinates

namespace ShapeRecovery

namespace Word

variable {u v w : Int}

/-- Numbers in the signed range that stand for one word are one number. -/
theorem eq_of_cast_eq (pos : 0 < w) (hu : InRange u w) (hv : InRange v w)
    (same : (u : ZMod (modulus w)) = v) : u = v := by
  have remainder : u % modulus w = v % modulus w := (ZMod.intCast_eq_intCast_iff u v _).mp same
  rw [← bmod_of_inRange pos hu, ← bmod_of_inRange pos hv, Int.bmod, Int.bmod, remainder]

private theorem inRange_zero (pos : 0 < w) : InRange 0 w := by
  simpa using inRange_bmod pos 0

private theorem inRange_one (several : 2 ≤ w) : InRange 1 w := by
  have double := modulus_eq_double (w := w - 1) (by omega)
  have pos := modulus_pos (w - 1 - 1)
  unfold InRange
  omega

end Word

namespace Expr

variable {es fs : List Expr} {e f r a b c : Expr} {v w d k m iw : Int}

section terms

private theorem IsTerm.cast_ne_zero {k : Option Expr} (pos : 0 < w) (term : IsTerm w k d e) :
    (d : ZMod (Word.modulus w)) ≠ 0 := fun zero =>
  term.nonzero (Word.eq_of_cast_eq pos term.inRange (Word.inRange_zero pos) (by simpa using zero))

/-- The terms of a sum in order, each at a place of its own. -/
structure Expanded (w : Int) (es : List Expr) : Prop where
  each : ∀ e ∈ es, ∃ k c, IsTerm w k c e
  apart : es.Pairwise fun e f => ∀ k c d, IsTerm w k c e → ¬ IsTerm w k d f
  rising : KeysRise es
  named : ∀ e ∈ es, e.Named

/-- Where no term is, the total is zero. -/
theorem totals_eq_zero {k : Option Expr} (each : ∀ e ∈ es, ∃ j c, IsTerm w j c e)
    (absent : ∀ e ∈ es, ∀ c, ¬ IsTerm w k c e) : totals w es k = 0 := by
  induction es with
  | nil => simp
  | cons e es ih =>
    obtain ⟨⟨j, c, term⟩, each⟩ := List.forall_mem_cons.mp each
    obtain ⟨away, absent⟩ := List.forall_mem_cons.mp absent
    have apart : k ≠ j := by
      rintro rfl
      exact away c term
    rw [totals_cons, Pi.add_apply, term.totals, single_apart apart, ih each absent, add_zero]

/-- Where a term is, its coefficient is the total. -/
theorem Expanded.totals {k : Option Expr} (expanded : Expanded w es) (mem : e ∈ es)
    (term : IsTerm w k d e) : totals w es k = d := by
  obtain ⟨each, apart, -, -⟩ := expanded
  obtain ⟨before, after, rfl⟩ := List.append_of_mem mem
  obtain ⟨-, behind, across⟩ := List.pairwise_append.mp apart
  have first : ∀ f ∈ before, ∀ c, ¬ IsTerm w k c f := fun f hf c other =>
    across f hf e (by simp) k c d other term
  have last : ∀ f ∈ after, ∀ c, ¬ IsTerm w k c f := fun f hf c other =>
    (List.pairwise_cons.mp behind).1 f hf k d c term other
  rw [totals_append, totals_cons, Pi.add_apply, Pi.add_apply, term.totals, single_same,
    totals_eq_zero (fun f hf => each f (by simp [hf])) first,
    totals_eq_zero (fun f hf => each f (by simp [hf])) last, zero_add, add_zero]

/-- Terms of equal totals are the same. -/
theorem Expanded.subset (pos : 0 < w) (expanded : Expanded w es) (expanded' : Expanded w fs)
    (same : Expr.totals w es = Expr.totals w fs) : es ⊆ fs := by
  intro e mem
  obtain ⟨k, d, term⟩ := expanded.each e mem
  have total : Expr.totals w fs k = d := by rw [← same, expanded.totals mem term]
  by_cases absent : ∀ f ∈ fs, ∀ c, ¬ IsTerm w k c f
  · exact absurd (total.symm.trans (totals_eq_zero expanded'.each absent)) (term.cast_ne_zero pos)
  push Not at absent
  obtain ⟨f, mem', c, term'⟩ := absent
  have equal := (expanded'.totals mem' term').symm.trans total
  obtain rfl := Word.eq_of_cast_eq pos term'.inRange term.inRange equal
  rwa [term.eq, ← term'.eq]

theorem Expanded.nodup (expanded : Expanded w es) : es.Nodup := by
  refine expanded.apart.imp_of_mem fun {e f} mem _ apart same => ?_
  obtain ⟨k, c, term⟩ := expanded.each e mem
  exact apart k c c term (same ▸ term)

/-- There is one way to write down terms of given totals. -/
theorem Expanded.unique (pos : 0 < w) (expanded : Expanded w es) (expanded' : Expanded w fs)
    (same : Expr.totals w es = Expr.totals w fs) : es = fs := by
  refine expanded.rising.unique expanded'.rising ?_ expanded.named
  refine (List.perm_ext_iff_of_nodup expanded.nodup expanded'.nodup).mpr fun e => ⟨fun mem => ?_, fun mem => ?_⟩
  · exact expanded.subset pos expanded' same mem
  · exact expanded'.subset pos expanded same.symm mem

/-- The terms of an expression; zero has none. -/
def termsOf (e : Expr) : List Expr := if e.isZero then [] else flatten .sum [e]

/-- The expression of given terms. -/
def ofTerms (w : Int) : List Expr → Expr
  | [] => const 0 w
  | [e] => e
  | es => .nary .sum es

theorem isTerm_of_plain (several : 2 ≤ w) (plain : Plain w e) (opened : e.naryOp? ≠ some .sum)
    (nonzero : e.isZero = false) : ∃ k c, IsTerm w k c e := by
  rcases plain_cases plain with ⟨v, rfl, inRange⟩ | ⟨ts, rfl, -⟩ | ⟨c, b, base, other, inRange, eq⟩
  · exact ⟨none, v, by simp, by simpa [isZero] using nonzero, inRange, rfl⟩
  · simp [naryOp?] at opened
  · refine ⟨some b, c, by simpa using base, other, ?_, eq⟩
    rcases inRange with rfl | inRange
    · exact Word.inRange_one several
    · exact inRange

/-- A term at `none` is a constant, and one elsewhere is a multiple. -/
theorem IsTerm.kind {k : Option Expr} (term : IsTerm w k d e) :
    (k = none ∧ e.isConst = true) ∨ ∃ b, k = some b ∧ e.isConst = false ∧ asMultiple e = .ok (d, b) := by
  obtain ⟨base, nonzero, -, rfl⟩ := term
  cases k with
  | none => exact .inl ⟨rfl, rfl⟩
  | some b =>
    obtain ⟨part, other, -⟩ := asMultiple_scaledBy (w := w) (base b rfl) nonzero
    exact .inr ⟨b, rfl, other, part⟩

/-- The operands of a canonical sum stand at different places. -/
theorem OperandsFit.apart (fit : OperandsFit .sum es) :
    es.Pairwise fun e f => ∀ k c d, IsTerm w k c e → ¬ IsTerm w k d f := by
  have different {e f : Expr} (other : f.isConst = false)
      (unlike : ∀ c d x y, asMultiple e = .ok (c, x) → asMultiple f = .ok (d, y) →
        e.isConst = false → f.isConst = false → x ≠ y) :
      ∀ k c d, IsTerm w k c e → ¬ IsTerm w k d f := by
    intro k c d term term'
    rcases term'.kind with ⟨-, constant⟩ | ⟨b, rfl, -, part'⟩
    · simp [constant] at other
    · rcases term.kind with ⟨none, -⟩ | ⟨b', same, here, part⟩
      · cases none
      · cases same
        exact unlike c d b b part part' here other rfl
  cases es with
  | nil => exact .nil
  | cons e es =>
    have others := fit.constantFirst
    obtain ⟨first, rest⟩ := List.pairwise_cons.mp (fit.unlike rfl)
    refine List.pairwise_cons.mpr ⟨fun f hf => different (others f hf) (first f hf), ?_⟩
    exact rest.imp_of_mem fun {e f} _ hf unlike => different (others f hf) unlike

/-- What is no constant and no sum is its own only term. -/
theorem termsOf_single (opened : e.naryOp? ≠ some .sum) (nonzero : e.isZero = false) : termsOf e = [e] := by
  simp [termsOf, nonzero, flatten_other opened, flatten]

theorem termsOf_sum (ts : List Expr) : termsOf (.nary .sum ts) = ts := by
  simp [termsOf, isZero, flatten]

/-- The terms of a plain expression are in order and at different places. -/
theorem expanded_of_terms (plain : Plain w e) (each : ∀ t ∈ termsOf e, ∃ k c, IsTerm w k c t) :
    Expanded w (termsOf e) := by
  by_cases zero : e.isZero = true
  · simp only [termsOf, zero, if_true]
    exact ⟨by simp, .nil, trivial, by simp⟩
  by_cases sum : e.naryOp? = some .sum
  · obtain ⟨ts, rfl⟩ := naryOp_eq.mp sum
    rw [termsOf_sum] at each ⊢
    have fit := plain.operandsFit
    exact ⟨each, fit.apart, fit.rising, named_nary.mp plain.proper.named⟩
  · rw [termsOf_single sum (by simpa using zero)] at each ⊢
    exact ⟨each, List.pairwise_singleton _ _, trivial, by simpa using plain.proper.named⟩

theorem expanded_termsOf (several : 2 ≤ w) (plain : Plain w e) : Expanded w (termsOf e) := by
  refine expanded_of_terms plain ?_
  by_cases zero : e.isZero = true
  · simp [termsOf, zero]
  have nonzero : e.isZero = false := by simpa using zero
  rcases plain_cases plain with ⟨v, rfl, -⟩ | ⟨ts, rfl, fit, parts⟩ | ⟨c, b, base, -, -, rfl⟩
  · have opened : (const v w).naryOp? ≠ some .sum := by simp [naryOp?]
    simpa [termsOf_single opened nonzero] using isTerm_of_plain several plain opened nonzero
  · rw [termsOf_sum]
    refine fun t ht => isTerm_of_plain several (parts t ht) (fit.opened t ht) ?_
    cases t with
    | const v u => simpa [Trivial, isZero] using fit.notTrivial v u ht
    | _ => rfl
  · have opened : (scaledBy w c b).naryOp? ≠ some .sum := scaledBy_opened base
    simpa [termsOf_single opened nonzero] using isTerm_of_plain several plain opened nonzero

theorem ofTerms_termsOf (plain : Plain w e) : ofTerms w (termsOf e) = e := by
  rcases plain_cases plain with ⟨v, rfl, -⟩ | ⟨ts, rfl, fit, -⟩ | ⟨c, b, base, nonzero, -, rfl⟩
  · by_cases nought : v = 0 <;> simp [termsOf, isZero, flatten, ofTerms, nought]
  · have several := fit.several
    have flat : flatten .sum [.nary .sum ts] = ts := by simp [flatten]
    rcases ts with _ | ⟨t, _ | ⟨u, ts⟩⟩
    · simp at several
    · simp at several
    · simp [termsOf, isZero, flat, ofTerms]
  · obtain ⟨-, other, -⟩ := asMultiple_scaledBy (w := w) base nonzero
    have notZero : (scaledBy w c b).isZero = false := by
      cases value : scaledBy w c b with
      | const v u => simp [value, isConst] at other
      | _ => rfl
    simp [termsOf, notZero, flatten_other (scaledBy_opened base), flatten, ofTerms]

theorem totals_termsOf (e : Expr) : totals w (termsOf e) = coordinates w e := by
  unfold termsOf
  split
  · next zero =>
    cases e with
    | const v u =>
      obtain rfl : v = 0 := by simpa [isZero] using zero
      simp [coordinates_const]
    | _ => cases zero
  · rfl

/-- The coordinates tell expressions with terms that are written down in one way only. -/
theorem eq_of_expanded (ha : Plain w a) (hb : Plain w b) (expanded : Expanded w (termsOf a))
    (expanded' : Expanded w (termsOf b)) (same : coordinates w a = coordinates w b) : a = b := by
  have terms : termsOf a = termsOf b :=
    expanded.unique ha.pos expanded' (by rw [totals_termsOf, totals_termsOf, same])
  rw [← ofTerms_termsOf ha, ← ofTerms_termsOf hb, terms]

/-- The coordinates tell an expression. -/
theorem eq_of_coordinates (several : 2 ≤ w) (ha : Plain w a) (hb : Plain w b)
    (same : coordinates w a = coordinates w b) : a = b :=
  eq_of_expanded ha hb (expanded_termsOf several ha) (expanded_termsOf several hb) same

end terms

section laws

/-- The product of `e` with a constant. -/
def scaled (iw w k : Int) (e : Expr) : Except Fault Expr := do
  let c ← ofInt k w
  productOf iw [c, e]

/-- Both have a result, which is the same. -/
def Agree (x y : Except Fault Expr) : Prop := ∃ r, x = .ok r ∧ y = .ok r

/-- `x` has a plain result of the coordinates `u`. -/
def Reaches (w : Int) (x : Except Fault Expr) (u : Option Expr → ZMod (Word.modulus w)) : Prop :=
  ∃ r, x = .ok r ∧ Plain w r ∧ coordinates w r = u

variable {x y : Except Fault Expr} {u u' : Option Expr → ZMod (Word.modulus w)}
  {f : Expr → Except Fault Expr}

namespace Reaches

theorem ok (plain : Plain w a) : Reaches w (.ok a) (coordinates w a) := ⟨a, rfl, plain, rfl⟩

theorem bind (first : Reaches w x u)
    (next : ∀ r, Plain w r → coordinates w r = u → Reaches w (f r) u') : Reaches w (x >>= f) u' := by
  obtain ⟨r, rfl, plain, same⟩ := first
  exact next r plain same

theorem agree (several : 2 ≤ w) (first : Reaches w x u) (second : Reaches w y u') (same : u = u') :
    Agree x y := by
  obtain ⟨r, run, plain, here⟩ := first
  obtain ⟨r', run', plain', here'⟩ := second
  obtain rfl := eq_of_coordinates several plain plain' (by rw [here, here', same])
  exact ⟨r, run, run'⟩

end Reaches

private theorem reaches_ofInt (pos : 0 < w) (k : Int) : Reaches w (ofInt k w) (single w none k) := by
  refine ⟨_, ofInt_eq pos k, .const pos (ofInt_eq pos k), ?_⟩
  rw [coordinates_const, single_bmod]

private theorem reaches_zero (pos : 0 < w) : Reaches w (zero w) 0 := by
  simpa [zero] using reaches_ofInt pos 0

theorem reaches_sum (iw : Int) (ha : Plain w a) (hb : Plain w b) :
    Reaches w (sumOf iw [a, b]) (coordinates w a + coordinates w b) := by
  have plain : ∀ e ∈ [a, b], Plain w e := by simpa using ⟨ha, hb⟩
  obtain ⟨r, run, -⟩ := sumOf_spec iw (by simp) (Plain.allBits plain)
  refine ⟨r, run, .sumWithin (by simp) plain run, ?_⟩
  simpa using coordinates_sumWithin (by simp) plain run

private theorem reaches_product (iw : Int) (typed : HasBits (const k w) w) (ha : Plain w a) :
    Reaches w (productOf iw [const k w, a]) ((k : ZMod (Word.modulus w)) • coordinates w a) := by
  have front : Plain w (const k w) := ⟨⟨typed, named_const⟩, .const k w, within_const k w⟩
  have plain : ∀ e ∈ [const k w, a], Plain w e := by simpa using ⟨front, ha⟩
  obtain ⟨r, run, -⟩ := productOf_spec iw (by simp) (Plain.allBits plain)
  exact ⟨r, run, .productWithin (by simp) plain run, coordinates_productWithin typed ha run⟩

theorem reaches_scaled (iw k : Int) (ha : Plain w a) :
    Reaches w (scaled iw w k a) ((k : ZMod (Word.modulus w)) • coordinates w a) := by
  simpa [scaled, ofInt_eq ha.pos] using reaches_product iw (hasBits_const_bmod ha.pos k) ha

private theorem reaches_difference (iw : Int) (ha : Plain w a) (hb : Plain w b) :
    Reaches w (difference iw a b) (coordinates w a - coordinates w b) := by
  have minus : Reaches w (negation iw b) (-coordinates w b) := by
    simpa [negation, scaled, hb.typed.width] using reaches_scaled iw (-1) hb
  refine minus.bind fun r plain same => ?_
  simpa [same, sub_eq_add_neg] using reaches_sum iw ha plain

namespace Reaches

theorem sum (iw : Int) (first : Reaches w x u) (second : Reaches w y u') :
    Reaches w (do sumOf iw [← x, ← y]) (u + u') := by
  refine first.bind fun a ha same => second.bind fun b hb same' => ?_
  rw [← same, ← same']
  exact reaches_sum iw ha hb

theorem difference (iw : Int) (first : Reaches w x u) (second : Reaches w y u') :
    Reaches w (do Expr.difference iw (← x) (← y)) (u - u') := by
  refine first.bind fun a ha same => second.bind fun b hb same' => ?_
  rw [← same, ← same']
  exact reaches_difference iw ha hb

theorem scaled (iw k : Int) (arg : Reaches w x u) :
    Reaches w (do Expr.scaled iw w k (← x)) ((k : ZMod (Word.modulus w)) • u) := by
  refine arg.bind fun a ha same => ?_
  rw [← same]
  exact reaches_scaled iw k ha

end Reaches

/-- The laws of a module over the words of `w` bits, for sums and products with constants, as
identities of nodes. -/
structure LinearLaws (iw w : Int) (a b c : Expr) (k m : Int) : Prop where
  add_assoc : Agree (do sumOf iw [← sumOf iw [a, b], c]) (do sumOf iw [a, ← sumOf iw [b, c]])
  add_zero : (do sumOf iw [a, ← zero w]) = .ok a
  sub_self : Agree (difference iw a a) (zero w)
  add_sub_cancel : (do difference iw (← sumOf iw [a, b]) b) = .ok a
  smul_add : Agree (do scaled iw w k (← sumOf iw [a, b]))
    (do sumOf iw [← scaled iw w k a, ← scaled iw w k b])
  smul_smul : Agree (do scaled iw w k (← scaled iw w m a)) (scaled iw w (k * m) a)
  add_smul : Agree (do sumOf iw [← scaled iw w k a, ← scaled iw w m a]) (scaled iw w (k + m) a)

/-- What is assembled from constants and unknowns obeys the laws of a module: like terms are collected and
cancelled completely. -/
theorem linear_laws (iw : Int) (several : 2 ≤ w) (ha : Assembled iw a w) (hb : Assembled iw b w)
    (hc : Assembled iw c w) (k m : Int) : LinearLaws iw w a b c k m := by
  have none := reaches_zero ha.plain.pos
  have ra := Reaches.ok ha.plain
  have rb := Reaches.ok hb.plain
  have rc := Reaches.ok hc.plain
  have itself {x : Except Fault Expr} (agree : Agree x (.ok a)) : x = .ok a := by
    obtain ⟨r, run, made⟩ := agree
    rw [run, made]
  exact {
    add_assoc := ((ra.sum iw rb).sum iw rc).agree several (ra.sum iw (rb.sum iw rc))
      (add_assoc _ _ _)
    add_zero := itself ((ra.sum iw none).agree several ra (add_zero _))
    sub_self := (ra.difference iw ra).agree several none (sub_self _)
    add_sub_cancel :=
      itself (((ra.sum iw rb).difference iw rb).agree several ra (add_sub_cancel_right _ _))
    smul_add := ((ra.sum iw rb).scaled iw k).agree several ((ra.scaled iw k).sum iw (rb.scaled iw k))
      (smul_add _ _ _)
    smul_smul := ((ra.scaled iw m).scaled iw k).agree several (ra.scaled iw (k * m))
      (by rw [Int.cast_mul, mul_smul])
    add_smul := ((ra.scaled iw k).sum iw (ra.scaled iw m)).agree several (ra.scaled iw (k + m))
      (by rw [Int.cast_add, add_smul]) }

/-- Terms of eight bits: a multiple of a product beside a constant, an extended quotient, and a maximum. -/
def byteTerms : Expr × Expr × Expr :=
  let x := unknown ⟨"x", 1⟩ 8
  (.nary .sum [const 100 8, .nary .product [const 64 8, x, unknown ⟨"y", 2⟩ 8]],
    cast .zeroExtend (.quotient (unknown ⟨"n", 3⟩ 4) (const 3 4)) 8, .nary .signedMax [const 5 8, x])

/-- Four times the first term is a constant, as the coefficient wraps to zero. -/
theorem linear_laws_byteTerms : (2 : Int) ≤ 8 ∧ Assembled 64 byteTerms.1 8 ∧
    Assembled 64 byteTerms.2.1 8 ∧ Assembled 64 byteTerms.2.2 8 ∧
      LinearLaws 64 8 byteTerms.1 byteTerms.2.1 byteTerms.2.2 4 (-3) := by
  let x := unknown ⟨"x", 1⟩ 8
  let y := unknown ⟨"y", 2⟩ 8
  have number {v w : Int} (pos : 0 < w) (run : ofInt v w = .ok (const v w)) :
      Assembled 64 (const v w) w := .const pos run
  have hx : Assembled 64 x 8 := .unknown (by decide +kernel) (by decide)
  have hy : Assembled 64 y 8 := .unknown (by decide +kernel) (by decide)
  have n : Assembled 64 (unknown ⟨"n", 3⟩ 4) 4 := .unknown (by decide +kernel) (by decide)
  have multiplied : productOf 64 [y, const 64 8, x] = .ok (.nary .product [const 64 8, x, y]) := by
    decide +kernel
  have product : Assembled 64 (.nary .product [const 64 8, x, y]) 8 :=
    .product (by decide) (by simpa using ⟨hy, number (by decide) rfl, hx⟩) multiplied
  have added : sumOf 64 [.nary .product [const 64 8, x, y], const 100 8] = .ok byteTerms.1 := by
    decide +kernel
  have first : Assembled 64 byteTerms.1 8 :=
    .sum (by decide) (by simpa using ⟨product, number (by decide) rfl⟩) added
  have second : Assembled 64 byteTerms.2.1 8 :=
    .cast (.quotient n (number (v := 3) (by decide) rfl) rfl)
      (show Admits .zeroExtend 4 8 by simp [Admits]) rfl
  have greater : maximum true 64 [x, const 5 8] = .ok byteTerms.2.2 := by decide +kernel
  have third : Assembled 64 byteTerms.2.2 8 :=
    .maximum (by decide) (by simpa using ⟨hx, number (by decide) rfl⟩) greater
  exact ⟨by decide, first, second, third, linear_laws 64 (by decide) first second third 4 (-3)⟩

end laws

end Expr

end ShapeRecovery
