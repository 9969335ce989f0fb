import ShapeRecovery.Proofs.Expr.FactorDivision

namespace ShapeRecovery.Expr

variable {fs : List Expr} {e : Expr} {us vs : List Symbol} {s : Symbol} {c d w iw : Int}

abbrev unknowns (w : Int) (us : List Symbol) : List Expr := us.map fun s => unknown s w

theorem isUnknown_of_names (names : ∀ s ∈ us, Text.isName s.name = true) :
    ∀ u ∈ unknowns w us, IsUnknown w u :=
  List.forall_mem_map.mpr fun s hs => ⟨s, rfl, names s hs⟩

/-- An integer and symbols, which stand for the product of the integer and of the unknowns. -/
structure Factors where
  number : Int
  symbols : List Symbol
deriving DecidableEq, Repr

namespace Factors

/-- The integer as a word of `w` bits. -/
def word (w : Int) (m : Factors) : Int := m.number.bmod (Word.modulus w)

def Named (m : Factors) : Prop := ∀ s ∈ m.symbols, Text.isName s.name = true

/-- The product of the integer and the unknowns, all of `w` bits. -/
def product (iw w : Int) (m : Factors) : Except Fault Expr := do
  let k ← ofInt m.number w
  productOf iw (k :: unknowns w m.symbols)

end Factors

/-- `e` is the product of the constant `c`, which is not zero, and the unknowns `us`. -/
structure TermOf (iw w c : Int) (us : List Symbol) (e : Expr) : Prop where
  wide : 2 ≤ w
  inRange : Word.InRange c w
  nonzero : c ≠ 0
  names : ∀ s ∈ us, Text.isName s.name = true
  run : productOf iw (const c w :: unknowns w us) = .ok e

/-- What dividing a term by the constant `d` gives: it is taken out of the coefficient, or something is
left over. A sign alone is not taken out where no coefficient is written. -/
def Scaled (iw w c : Int) (us : List Symbol) (d : Int) (q r : Expr) : Prop :=
  r = const 0 w ∧ (∃ k, TermOf iw w k us q ∧ k.natAbs * d.natAbs = c.natAbs) ∨
    r.isZero = false ∧ (d ∣ c → d = -1)

/-- The factors of a product make the product again. -/
theorem productOf_factors (iw : Int) (wide : 2 ≤ w) (multiplied : Multiplied (product fs))
    (proper : Proper w (product fs)) : productOf iw fs = .ok (product fs) := by
  obtain ⟨several, typed⟩ := HasBits.nary_iff.mp proper.typed
  have filled : fs ≠ [] := List.ne_nil_of_length_pos (by omega)
  have opened : ∀ f ∈ fs, f.naryOp? ≠ some .product := by
    cases multiplied with
    | nary fit _ => exact (fit rfl).1.opened
  have flat : flatten .product [product fs] = flatten .product fs := by
    rw [flatten_opened opened]
    simp [flatten]
  have parts : AllProper w fs := fun f hf => ⟨typed f hf, named_nary.mp proper.named f hf⟩
  have same : plainFactors fs = plainFactors [product fs] := by rw [plainFactors, ← flat, plainFactors]
  rw [productOf_congr iw filled (List.cons_ne_nil _ _) parts (by simpa using proper) (by rw [flat])
    (.of_eq same), productOf_self iw wide multiplied proper.typed]

theorem lookup_other {x r : Expr} (other : e ≠ x) : lookup [(x, r)] e = none := by
  simp [lookup, Ne.symm other]

/-- Factors that are not replaced, and have no operands, are multiplied again. -/
theorem substitute_product {env : Expr → Option Expr} (whole : env (product fs) = none)
    (fresh : ∀ f ∈ fs, env f = none)
    (plain : ∀ f ∈ fs, (∃ v b, f = const v b) ∨ ∃ t b, f = unknown t b) (some : fs ≠ []) :
    substitute iw env (product fs) = productOf iw fs := by
  have each : fs.mapM (substitute iw env) = .ok fs := by
    have same : ∀ f ∈ fs, substitute iw env f = .ok (id f) := by
      intro f hf
      rcases plain f hf with ⟨v, b, rfl⟩ | ⟨t, b, rfl⟩ <;> simp [substitute, fresh _ hf]
    rw [mapM_ok same, List.map_id]
  obtain ⟨f, fs, rfl⟩ := List.exists_cons_of_ne_nil some
  simp only [substitute, whole, substituteList_eq_mapM, each, ok_bind]
  rfl

namespace TermOf

variable (term : TermOf iw w c us e)
include term

theorem pos : 0 < w := by have := term.wide; omega

theorem known : ∀ u ∈ unknowns w us, IsUnknown w u := isUnknown_of_names term.names

theorem proper_const : Proper w (const c w) :=
  ⟨.const term.pos term.inRange, named_const⟩

theorem operands : AllProper w (const c w :: unknowns w us) :=
  AllProper.cons.mpr ⟨term.proper_const, allProper_unknowns term.pos term.known⟩

theorem proper : Proper w e := by
  obtain ⟨r, run, -, proper⟩ := productOf_perm iw (List.cons_ne_nil _ _) term.operands (.refl _)
  cases run.symm.trans term.run
  exact proper

theorem multiplied : Multiplied e := by
  refine (inherited_multiplied.hereditary iw).product (List.cons_ne_nil _ _) term.operands.typed ?_ term.run
  refine List.forall_mem_cons.mpr ⟨.const c w, List.forall_mem_map.mpr fun s _ => .unknown s w⟩

theorem perm (perm : us.Perm vs) : TermOf iw w c vs e where
  wide := term.wide
  inRange := term.inRange
  nonzero := term.nonzero
  names s hs := term.names s (perm.mem_iff.mpr hs)
  run := by
    obtain ⟨r, run, moved, -⟩ := productOf_perm iw (List.cons_ne_nil _ _) term.operands
      ((perm.map fun s => unknown s w).cons (const c w))
    rw [moved, ← run, term.run]

/-- A term is a constant, an unknown, or a product of its sorted factors. -/
theorem shape : us = [] ∧ e = const c w ∨ (∃ s, c = 1 ∧ us = [s] ∧ e = unknown s w) ∨
    ∃ fs, e = product fs ∧ fs.Perm (written w c ++ unknowns w us) ∧ 2 ≤ fs.length := by
  by_cases none : us = []
  · subst none
    have run := term.run
    rw [unknowns, List.map_nil, productOf_const iw term.proper_const.typed] at run
    cases run
    exact .inl ⟨rfl, rfl⟩
  right
  have filled : unknowns w us ≠ [] := by simpa using none
  have run := term.run
  rw [(factored_const term.wide term.inRange term.nonzero).productOf_unknowns iw term.pos
    term.proper_const.typed rfl filled term.known, plainFactors_const, List.append_nil] at run
  rcases ordered_cases (List.append_ne_nil_of_right_ne_nil _ filled) run with single |
    ⟨fs, sorted, several, rfl⟩
  · left
    unfold written at single
    split at single
    · next one =>
      obtain ⟨s, rfl, rfl⟩ := List.map_eq_singleton_iff.mp single
      exact ⟨s, one, rfl, rfl⟩
    · exact absurd (List.cons.inj single).2 filled
  · exact .inr ⟨fs, rfl, perm_of_sorted sorted, several⟩

omit term in
theorem mem_factors (perm : fs.Perm (written w c ++ unknowns w us)) :
    ∀ f ∈ fs, f = const c w ∨ ∃ s ∈ us, f = unknown s w := by
  intro f hf
  rcases List.mem_append.mp (perm.mem_iff.mp hf) with mem | mem
  · exact .inl (isConst_of_written f mem)
  · obtain ⟨s, hs, rfl⟩ := List.mem_map.mp mem
    exact .inr ⟨s, hs, rfl⟩

theorem isZero : e.isZero = false := by
  rcases term.shape with ⟨-, rfl⟩ | ⟨s, -, -, rfl⟩ | ⟨fs, rfl, -⟩
  · simpa [Expr.isZero] using term.nonzero
  · rfl
  · rfl

/-- Dividing by one of the unknowns takes it out. -/
theorem divide_unknown (mem : s ∈ us) : ∃ q, quotRem iw e (unknown s w) = .ok (q, const 0 w) ∧
    TermOf iw w c (us.erase s) q := by
  have moved := term.perm (List.perm_cons_erase mem)
  have known := moved.known
  obtain ⟨first, rest⟩ := List.forall_mem_cons.mp known
  obtain ⟨q, r, left, whole, divided, -⟩ :=
    (Multiplied.const c w).undone iw term.wide term.proper_const first rest
  cases whole.symm.trans moved.run
  refine ⟨q, divided, ?_⟩
  exact ⟨term.wide, term.inRange, term.nonzero, fun t ht => term.names t (List.mem_of_mem_erase ht), left⟩

/-- Replacing an unknown that is no factor of a product changes nothing. -/
theorem substitute_absent (whole : e = product fs) (perm : fs.Perm (written w c ++ unknowns w us))
    (several : 2 ≤ fs.length) (fresh : s ∉ us) (r : Expr) :
    substitute iw (lookup [(unknown s w, r)]) e = .ok e := by
  subst whole
  have factor := mem_factors perm
  have absent : ∀ f ∈ fs, lookup [(unknown s w, r)] f = none := by
    refine fun f hf => lookup_other ?_
    rcases factor f hf with rfl | ⟨t, ht, rfl⟩
    · simp
    · intro same
      cases same
      exact fresh ht
  have plain : ∀ f ∈ fs, (∃ v b, f = const v b) ∨ ∃ t b, f = unknown t b := by
    intro f hf
    rcases factor f hf with rfl | ⟨t, -, rfl⟩
    · exact .inl ⟨_, _, rfl⟩
    · exact .inr ⟨_, _, rfl⟩
  rw [substitute_product (lookup_other (by simp)) absent plain (List.ne_nil_of_length_pos (by omega)),
    productOf_factors iw term.wide term.multiplied term.proper]

/-- Dividing by another unknown leaves something over. -/
theorem divide_other (name : Text.isName s.name = true) (fresh : s ∉ us) :
    ∃ q r, quotRem iw e (unknown s w) = .ok (q, r) ∧ r.isZero = false := by
  have pos := term.pos
  have known : IsUnknown w (unknown s w) := ⟨s, rfl, name⟩
  have constant : divideByAtom iw (unknown s w) (const c w) = .ok (const 0 w, const c w) :=
    known.divide_const pos term.nonzero
  have other (t : Symbol) (ht : t ∈ us) :
      divideByAtom iw (unknown s w) (unknown t w) = .ok (const 0 w, unknown t w) := by
    refine divideByAtom_leaf_rest ⟨rfl, .unknown pos⟩ (fun same => ?_) rfl
    cases same
    exact fresh ht
  rcases term.shape with ⟨-, rfl⟩ | ⟨t, -, rfl, rfl⟩ | ⟨fs, rfl, perm, several⟩
  · exact ⟨_, _, constant, term.isZero⟩
  · exact ⟨_, _, other t (by simp), rfl⟩
  have factor := mem_factors perm
  have none : divideFactor? iw (unknown s w) fs = .ok none := by
    refine divideFactor_none fun f hf => ?_
    rcases factor f hf with rfl | ⟨t, ht, rfl⟩
    · exact ⟨_, _, constant, by simpa [Expr.isZero] using term.nonzero⟩
    · exact ⟨_, _, other t ht, rfl⟩
  have again := term.substitute_absent rfl perm several fresh (const 0 w)
  refine ⟨const 0 w, product fs, ?_, rfl⟩
  rw [quotRem, divideBy_atom (by simp [naryOp?]), divideByAtom_product_unknown term.proper.typed
    (immediateDivision_none (by simp) rfl rfl) none]
  simp only [divideByUnknown, zero_eq pos, again, indivisible_eq pos, ok_bind, Expr.isZero,
    Bool.false_eq_true, if_false]

/-- An integer divided by one of its divisors, as a word. -/
theorem quotient (divides : d ∣ c) : Word.InRange ((c.tdiv d).bmod (Word.modulus w)) w ∧
    ((c.tdiv d).bmod (Word.modulus w)).natAbs * d.natAbs = c.natAbs := by
  have pos := term.pos
  have le := (Int.natAbs_tdiv_le_natAbs c d).trans (Word.natAbs_le_of_inRange term.inRange)
  refine ⟨Word.inRange_bmod pos _, ?_⟩
  rw [Word.natAbs_bmod pos le, ← Int.natAbs_mul, Int.tdiv_mul_cancel divides]

/-- A quotient of the coefficient makes a term with the same unknowns. -/
theorem of_quotient (divides : d ∣ c) {q : Expr} (run : productOf iw
    (const ((c.tdiv d).bmod (Word.modulus w)) w :: unknowns w us) = .ok q) :
    ∃ k, TermOf iw w k us q ∧ k.natAbs * d.natAbs = c.natAbs := by
  obtain ⟨inRange, size⟩ := term.quotient divides
  refine ⟨_, ⟨term.wide, inRange, fun none => term.nonzero ?_, term.names, run⟩, size⟩
  rw [none] at size
  simpa using size.symm

theorem divide_still (other : d ≠ 1) (s : Symbol) :
    divideByAtom iw (const d w) (unknown s w) = .ok (const 0 w, unknown s w) :=
  divideByAtom_leaf_rest ⟨rfl, .unknown term.pos⟩ (by simp) (by simpa [isOne] using other)

/-- The coefficient is found among the factors of a product, and its quotient takes its place. -/
private theorem divide_written (whole : e = product fs) (perm : fs.Perm (const c w :: unknowns w us))
    (other : d ≠ 1) (divides : d ∣ c) : ∃ q, quotRem iw e (const d w) = .ok (q, const 0 w) ∧
      ∃ k, TermOf iw w k us q ∧ k.natAbs * d.natAbs = c.natAbs := by
  subst whole
  have pos := term.pos
  have nonzero : d ≠ 0 := by
    rintro rfl
    exact term.nonzero (Int.zero_dvd.mp divides)
  have constant : divideByAtom iw (const d w) (const c w) = _ :=
    quotRem_constants iw pos term.inRange nonzero
  rw [Int.tmod_eq_zero_of_dvd divides] at constant
  obtain ⟨before, after, rfl⟩ := List.append_of_mem (perm.mem_iff.mpr List.mem_cons_self)
  have rest : (unknowns w us).Perm (before ++ after) :=
    (List.perm_cons _).mp (perm.symm.trans List.perm_middle)
  have left : ∀ f ∈ before, ∃ q r, divideByAtom iw (const d w) f = .ok (q, r) ∧ r.isZero = false := by
    intro f hf
    obtain ⟨s, -, rfl⟩ := List.mem_map.mp (rest.mem_iff.mpr (List.mem_append_left _ hf))
    exact ⟨_, _, term.divide_still other s, rfl⟩
  have found := divideFactor_first left constant rfl after
  obtain ⟨q, run, moved, -⟩ := productOf_perm iw (List.cons_ne_nil _ _)
    (AllProper.cons.mpr ⟨⟨.const pos (term.quotient divides).1, named_const⟩,
      allProper_unknowns pos term.known⟩) ((rest.cons _).trans List.perm_middle.symm)
  refine ⟨q, ?_, term.of_quotient divides run⟩
  rw [quotRem, divideBy_atom (by simp [naryOp?])]
  exact divideByAtom_product term.proper.typed
    (immediateDivision_none (by simp) rfl (by simpa [isOne] using other)) found moved

private theorem divide_product (whole : e = product fs) (perm : fs.Perm (written w c ++ unknowns w us))
    (nonzero : d ≠ 0) (other : d ≠ 1) :
    ∃ q r, quotRem iw e (const d w) = .ok (q, r) ∧ Scaled iw w c us d q r := by
  by_cases divides : d ∣ c ∧ c ≠ 1
  · have front : written w c = [const c w] := if_neg divides.2
    rw [front, List.singleton_append] at perm
    obtain ⟨q, run, rest⟩ := term.divide_written whole perm other divides.1
    exact ⟨q, const 0 w, run, .inl ⟨rfl, rest⟩⟩
  -- Neither the coefficient, if there is one, nor an unknown is divided.
  subst whole
  have none : divideFactor? iw (const d w) fs = .ok none := by
    refine divideFactor_none fun f hf => ?_
    rcases List.mem_append.mp (perm.mem_iff.mp hf) with mem | mem
    · obtain rfl := isConst_of_written f mem
      refine ⟨_, _, quotRem_constants iw term.pos term.inRange nonzero, ?_⟩
      have several : c ≠ 1 := by
        rintro rfl
        simp [written] at mem
      simpa [Expr.isZero] using fun none => divides ⟨Int.dvd_of_tmod_eq_zero none, several⟩
    · obtain ⟨s, -, rfl⟩ := List.mem_map.mp mem
      exact ⟨_, _, term.divide_still other s, rfl⟩
  refine ⟨_, _, divideByAtom_product_rest term.proper.typed
    (immediateDivision_none (by simp) rfl (by simpa [isOne] using other)) none (by simp),
    .inr ⟨rfl, fun h => ?_⟩⟩
  have one : c = 1 := by simpa [h] using divides
  exact eq_neg_one_of_dvd_one (one ▸ h) other

/-- Every constant but zero is taken out of a term, or something of it is left over. -/
theorem divide_constant (nonzero : d ≠ 0) :
    ∃ q r, quotRem iw e (const d w) = .ok (q, r) ∧ Scaled iw w c us d q r := by
  have pos := term.pos
  cases constant : e.isConst with
  | true =>
    obtain ⟨rfl, rfl⟩ : us = [] ∧ e = const c w := by
      rcases term.shape with both | ⟨s, -, -, rfl⟩ | ⟨fs, rfl, -⟩
      · exact both
      · cases constant
      · cases constant
    refine ⟨_, _, quotRem_constants iw pos term.inRange nonzero, ?_⟩
    by_cases divides : d ∣ c
    · refine .inl ⟨by rw [Int.tmod_eq_zero_of_dvd divides], term.of_quotient divides ?_⟩
      exact productOf_const iw (.const pos (term.quotient divides).1)
    · refine .inr ⟨?_, fun h => absurd h divides⟩
      simpa [Expr.isZero] using fun none => divides (Int.dvd_of_tmod_eq_zero none)
  | false =>
    by_cases one : d = 1
    · subst one
      exact ⟨e, const 0 w, quotRem_one iw term.proper.typed constant, .inl ⟨rfl, c, term, by simp⟩⟩
    rcases term.shape with ⟨-, rfl⟩ | ⟨s, unit, rfl, rfl⟩ | ⟨fs, whole, perm, -⟩
    · cases constant
    · exact ⟨_, _, term.divide_still one s,
        .inr ⟨rfl, fun divides => eq_neg_one_of_dvd_one (unit ▸ divides) one⟩⟩
    · exact term.divide_product whole perm nonzero one

end TermOf

namespace Factors

variable {m : Factors}

/-- `e` is zero, or the product of the factors `m`. -/
def Makes (iw w : Int) (m : Factors) (e : Expr) : Prop :=
  m.word w = 0 ∧ e = const 0 w ∨ TermOf iw w (m.word w) m.symbols e

theorem product_eq (iw : Int) (pos : 0 < w) :
    m.product iw w = productOf iw (const (m.word w) w :: unknowns w m.symbols) := by
  rw [product, ofInt_eq pos, ok_bind, word]

theorem operands (pos : 0 < w) (named : m.Named) :
    AllProper w (const (m.word w) w :: unknowns w m.symbols) :=
  AllProper.cons.mpr ⟨⟨.const pos (Word.inRange_bmod pos m.number), named_const⟩,
    allProper_unknowns pos (isUnknown_of_names named)⟩

/-- The product of factors is made. -/
theorem product_spec (iw : Int) (wide : 2 ≤ w) (named : m.Named) :
    ∃ e, m.product iw w = .ok e ∧ m.Makes iw w e := by
  have pos : 0 < w := by omega
  rw [product_eq iw pos]
  by_cases none : m.word w = 0
  · rw [none]
    exact ⟨_, productOf_zero iw pos (isUnknown_of_names named), .inl ⟨none, rfl⟩⟩
  · obtain ⟨e, run, -⟩ := productOf_spec iw (List.cons_ne_nil _ _) (operands pos named).typed
    exact ⟨e, run, .inr ⟨wide, Word.inRange_bmod pos m.number, none, named, run⟩⟩

/-- The order of the symbols makes no difference. -/
theorem product_congr (iw : Int) (wide : 2 ≤ w) {m' : Factors} (named : m.Named)
    (number : m.number = m'.number) (symbols : m.symbols.Perm m'.symbols) :
    m.product iw w = m'.product iw w := by
  have pos : 0 < w := by omega
  obtain ⟨r, first, second, -⟩ := productOf_perm iw (List.cons_ne_nil _ _) (operands pos named)
    ((symbols.map fun s => unknown s w).cons (const (m.word w) w))
  have word : m'.word w = m.word w := by rw [word, word, number]
  rw [product_eq iw pos, product_eq iw pos, word]
  exact first.trans second.symm

end Factors

end ShapeRecovery.Expr
