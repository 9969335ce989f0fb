import Mathlib.Algebra.Module.Pi
import Mathlib.Tactic.Abel
import ShapeRecovery.Proofs.Expr.LoopFree

namespace ShapeRecovery.Expr

variable {add mul : Build} {es fs ts : List Expr} {e r a b : Expr} {op : Nary} {v w u c k iw : Int} {n : Nat}

/-- What the terms `es` come to: the constants at `none`, and the coefficients of `b` at `some b`. -/
def totals (w : Int) (es : List Expr) : Option Expr → ZMod (Word.modulus w)
  | none => ((constantsOf es).sum : Int)
  | some b => ((coefficientsOf b es).sum : Int)

/-- The coordinates of a single term. -/
def single (w : Int) (k : Option Expr) (c : Int) : Option Expr → ZMod (Word.modulus w) :=
  Pi.single k (c : ZMod (Word.modulus w))

def coordinates (w : Int) (e : Expr) : Option Expr → ZMod (Word.modulus w) :=
  totals w (flatten .sum [e])

section totals

theorem single_same (w c : Int) (k : Option Expr) : single w k c k = c := Pi.single_eq_same k _

theorem single_apart {k j : Option Expr} (apart : j ≠ k) (w c : Int) : single w k c j = 0 :=
  Pi.single_eq_of_ne apart _

@[simp] theorem single_zero (w : Int) (k : Option Expr) : single w k 0 = 0 := by simp [single]

theorem single_add (w c d : Int) (k : Option Expr) : single w k (c + d) = single w k c + single w k d := by
  rw [single, Int.cast_add, Pi.single_add]
  rfl

theorem single_mul (w c d : Int) (k : Option Expr) :
    single w k (c * d) = (c : ZMod (Word.modulus w)) • single w k d := by
  rw [single, single, Int.cast_mul, ← Pi.single_smul, smul_eq_mul]

@[simp] theorem single_bmod (w c : Int) (k : Option Expr) :
    single w k (c.bmod (Word.modulus w)) = single w k c := by
  rw [single, single, Word.cast_bmod]

@[simp] theorem totals_nil : totals w [] = 0 := by
  funext k
  cases k <;> simp [totals, constantsOf, coefficientsOf]

theorem totals_append (es fs : List Expr) : totals w (es ++ fs) = totals w es + totals w fs := by
  funext k
  cases k <;> simp [totals, constantsOf_append]

theorem totals_cons (e : Expr) (es : List Expr) : totals w (e :: es) = totals w [e] + totals w es :=
  totals_append [e] es

theorem totals_eq_sum (es : List Expr) : totals w es = (es.map fun e => totals w [e]).sum := by
  induction es with
  | nil => simp
  | cons e es ih => rw [totals_cons, ih, List.map_cons, List.sum_cons]

private theorem totals_perm (perm : es.Perm fs) : totals w es = totals w fs := by
  rw [totals_eq_sum, totals_eq_sum fs]
  exact (perm.map _).sum_eq

theorem totals_const (v u : Int) : totals w [const v u] = single w none v := by
  funext k
  cases k with
  | none => simp [totals, constantsOf, single_same]
  | some b => simp [totals, single_apart]

theorem totals_multiple (other : e.isConst = false) (still : e.isRecurrence = false)
    (part : asMultiple e = .ok (c, b)) :
    totals w [e] = single w (some b) c := by
  funext k
  cases k with
  | none =>
    cases e with
    | const v u => cases other
    | _ => simp [totals, constantsOf, single_apart]
  | some d =>
    have found : coefficient? d e = if b = d then some c else none := by
      cases e with
      | const v w => cases other
      | recurrence a b l => cases still
      | _ => simp only [coefficient?, part]
    by_cases same : b = d
    · subst same
      simp [totals, coefficientsOf, found, single_same]
    · have apart : some d ≠ some b := fun h => same (Option.some.inj h).symm
      rw [single_apart apart]
      simp [totals, coefficientsOf, found, same]

theorem coordinates_opened (opened : e.naryOp? ≠ some .sum) : coordinates w e = totals w [e] := by
  rw [coordinates, flatten_other opened]
  rfl

theorem coordinates_nary (ts : List Expr) : coordinates w (.nary .sum ts) = totals w ts := by
  simp [coordinates, flatten]

theorem coordinates_const (v u : Int) :
    coordinates w (const v u) = single w none v := by
  rw [coordinates_opened (by simp [naryOp?]), totals_const]

private theorem totals_flatten (es : List Expr) :
    totals w (flatten .sum es) = (es.map (coordinates w)).sum := by
  induction es with
  | nil => simp [flatten]
  | cons e es ih =>
    rw [← List.singleton_append, flatten_append, totals_append, ih, List.singleton_append, List.map_cons,
      List.sum_cons, coordinates]

theorem totals_of_opened (opened : ∀ e ∈ es, e.naryOp? ≠ some .sum) :
    totals w es = (es.map (coordinates w)).sum := by
  rw [totals_eq_sum]
  exact congrArg List.sum (List.map_congr_left fun e he => (coordinates_opened (opened e he)).symm)

private theorem coordinates_ordered (opened : ∀ e ∈ es, e.naryOp? ≠ some .sum)
    (run : ordered .sum es = .ok r) : coordinates w r = totals w es := by
  rcases arranged_of_ordered run with rfl | ⟨-, fs, perm, rfl⟩
  · exact coordinates_opened (opened r (by simp))
  · rw [coordinates_nary, totals_perm perm]

end totals

section terms

/-- What collected terms come to. -/
def Terms.totals (w : Int) (t : Terms) : Option Expr → ZMod (Word.modulus w) :=
  single w none t.constant +
    (t.multiples.map fun p => single w (some p.1) p.2).sum

private theorem sum_addMultiple_single (b : Expr) (c : Int) (ms : List (Expr × Int)) :
    ((Terms.addMultiple b c ms).map fun p => single w (some p.1) p.2).sum =
      (ms.map fun p => single w (some p.1) p.2).sum +
        single w (some b) c := by
  induction ms with
  | nil => simp [Terms.addMultiple]
  | cons m ms ih =>
    unfold Terms.addMultiple
    split
    · next same =>
      subst same
      simp only [List.map_cons, List.sum_cons, single_add]
      abel
    · simp only [List.map_cons, List.sum_cons, ih]
      abel

private theorem Terms.totals_insert {t t' : Terms} (run : Terms.insert t e = .ok t') :
    t'.totals w = t.totals w + Expr.totals w [e] := by
  have ofMultiple (other : e.isConst = false) (still : e.isRecurrence = false)
      (run : (asMultiple e >>= fun part =>
        pure { t with multiples := addMultiple part.2 part.1 t.multiples }) = .ok t') :
      t'.totals w = t.totals w + Expr.totals w [e] := by
    obtain ⟨⟨c, b⟩, part, made⟩ := bind_eq_ok.mp run
    cases made
    rw [totals_multiple other still part, Terms.totals, Terms.totals, sum_addMultiple_single, add_assoc]
  cases e with
  | const v u =>
    cases run
    simp only [Terms.totals, totals_const, single_add]
    abel
  | recurrence a b l =>
    cases run
    have none : Expr.totals w [recurrence a b l] = 0 := by
      funext k
      cases k <;> simp [Expr.totals, constantsOf]
    rw [none, add_zero]
    rfl
  | _ => exact ofMultiple rfl rfl run

private theorem Terms.totals_eq {t : Terms} (run : Terms.ofList es = .ok t) :
    t.totals w = Expr.totals w es := by
  induction es using List.reverseRecOn generalizing t with
  | nil =>
    cases run
    simp [Terms.totals, Terms.empty]
  | append_singleton es e ih =>
    simp only [ofList, List.foldlM_append, List.foldlM_cons, List.foldlM_nil] at run
    obtain ⟨u, hu, run⟩ := bind_eq_ok.mp run
    obtain ⟨t', step, made⟩ := bind_eq_ok.mp run
    cases made
    rw [totals_insert step, ih hu, totals_append]

end terms

section scaled

/-- The multiple of the base `b` by `c`. -/
def scaledBy (w c : Int) (b : Expr) : Expr :=
  if c = 0 then const 0 w else if c = 1 then b else .nary .product (const c w :: factorsOf b)

theorem scaledBy_one : scaledBy w 1 b = b := by simp [scaledBy]

theorem scaledBy_of_ne (nonzero : c ≠ 0) (other : c ≠ 1) :
    scaledBy w c b = .nary .product (const c w :: factorsOf b) := by simp [scaledBy, nonzero, other]

theorem scaledBy_opened (base : Base b) : (scaledBy w c b).naryOp? ≠ some .sum := by
  unfold scaledBy
  split
  · simp [naryOp?]
  · split
    · exact base.noSum
    · simp [naryOp?]

theorem asMultiple_scaledBy (base : Base b) (nonzero : c ≠ 0) :
    Expr.asMultiple (scaledBy w c b) = .ok (c, b) ∧ (scaledBy w c b).isConst = false ∧
      (scaledBy w c b).isRecurrence = false := by
  by_cases one : c = 1
  · subst one
    rw [scaledBy_one]
    exact ⟨base.asMultiple, base.isConst, base.still⟩
  · rw [scaledBy_of_ne nonzero one]
    exact ⟨base.asMultiple_scaled c w, rfl, rfl⟩

theorem totals_scaledBy (base : Base b) :
    totals w [scaledBy w c b] = single w (some b) c := by
  by_cases nought : c = 0
  · simp [nought, scaledBy, totals_const]
  · obtain ⟨part, other, still⟩ := asMultiple_scaledBy (w := w) base nought
    exact totals_multiple other still part

theorem coordinates_scaledBy (base : Base b) :
    coordinates w (scaledBy w c b) = single w (some b) c := by
  rw [coordinates_opened (scaledBy_opened base), totals_scaledBy base]

/-- `e` is the multiple of the base `b` by `c`, which is not zero. -/
structure IsMultiple (w c : Int) (b e : Expr) : Prop where
  base : Base b
  nonzero : c ≠ 0
  inRange : c = 1 ∨ Word.InRange c w
  eq : e = scaledBy w c b

/-- A plain expression is a constant, a sum of plain terms, or a multiple of a base. -/
theorem plain_cases (plain : Plain w e) :
    (∃ v, e = const v w ∧ Word.InRange v w) ∨
      (∃ ts, e = .nary .sum ts ∧ OperandsFit .sum ts ∧ ∀ t ∈ ts, Plain w t) ∨
        ∃ c b, IsMultiple w c b e := by
  have typed := plain.typed
  have settled := plain.settled
  cases constant : e.isConst with
  | true =>
    cases e with
    | const v u =>
      cases typed with
      | const pos inRange => exact .inl ⟨v, rfl, inRange⟩
    | _ => cases constant
  | false =>
  right
  by_cases sum : e.naryOp? = some .sum
  · obtain ⟨ts, rfl⟩ := naryOp_eq.mp sum
    exact .inl ⟨ts, rfl, plain.operandsFit, plain.parts⟩
  · right
    have still := plain.free.still
    by_cases whole : ∃ v u fs, e = .nary .product (const v u :: fs)
    · obtain ⟨v, u, fs, rfl⟩ := whole
      obtain ⟨-, parts⟩ := HasBits.nary_iff.mp typed
      have notTrivial : v ≠ 0 ∧ v ≠ 1 := by
        cases settled with
        | nary fit joined settled => simpa [Trivial] using fit.notTrivial v u (by simp)
      have factor := parts (const v u) (by simp)
      cases factor with
      | const pos inRange =>
      have split (b : Expr) (base : Base b) (factors : factorsOf b = fs) :
          IsMultiple w v b (.nary .product (const v w :: fs)) :=
        ⟨base, notTrivial.1, .inr inRange, by rw [scaledBy_of_ne notTrivial.1 notTrivial.2, factors]⟩
      by_cases alone : ∃ f, fs = [f]
      · obtain ⟨f, rfl⟩ := alone
        have base := base_of_factor settled
        refine ⟨v, f, split f base ?_⟩
        rcases base.factors with ⟨-, same⟩ | ⟨gs, rfl, -⟩
        · exact same
        · cases settled with
          | nary fit joined settled => exact absurd rfl (fit.opened (.nary .product gs) (by simp))
      · exact ⟨v, .nary .product fs,
          split _ (base_of_factors settled fun f same => alone ⟨f, same⟩) rfl⟩
    · have base := base_of_plain settled constant still sum fun v u fs same => whole ⟨v, u, fs, same⟩
      exact ⟨1, e, base, one_ne_zero, .inl rfl, scaledBy_one.symm⟩

/-- The term with the coefficient `c`: a constant, or a multiple of a base. -/
def termAt (w c : Int) : Option Expr → Expr
  | none => const c w
  | some b => scaledBy w c b

/-- `e` is the term at `k` with the coefficient `c`, which is not zero. -/
structure IsTerm (w : Int) (k : Option Expr) (c : Int) (e : Expr) : Prop where
  base : ∀ b ∈ k, Base b
  nonzero : c ≠ 0
  inRange : Word.InRange c w
  eq : e = termAt w c k

theorem IsTerm.totals {k : Option Expr} (term : IsTerm w k c e) : totals w [e] = single w k c := by
  obtain ⟨base, -, -, rfl⟩ := term
  cases k with
  | none => exact totals_const c w
  | some b => exact totals_scaledBy (base b rfl)

theorem IsTerm.opened {k : Option Expr} (term : IsTerm w k c e) : e.naryOp? ≠ some .sum := by
  obtain ⟨base, -, -, rfl⟩ := term
  cases k with
  | none => simp [termAt, naryOp?]
  | some b => exact scaledBy_opened (base b rfl)

end scaled

section product

/-- The factors of a multiple of a base. -/
theorem flatten_scaledBy (base : Base b) (nonzero : c ≠ 0) :
    flatten .product [scaledBy w c b] = (if c = 1 then [] else [const c w]) ++ factorsOf b := by
  by_cases one : c = 1
  · subst one
    rw [scaledBy_one]
    rcases base.factors with ⟨opened, same⟩ | ⟨fs, rfl, same, -, -⟩
    · rw [same, flatten_other opened]
      rfl
    · simp [flatten, factorsOf]
  · rw [scaledBy_of_ne nonzero one]
    simp [flatten, one]

theorem plainFactors_scaledBy (base : Base b) (nonzero : c ≠ 0) :
    plainFactors [scaledBy w c b] = factorsOf b := by
  rw [plainFactors, flatten_scaledBy base nonzero]
  by_cases one : c = 1 <;> simpa [one, isConst] using base.constFree

/-- The factors of a base with a constant before them, which stands for a coefficient. -/
private theorem ordered_factors (base : Base b) (run : ordered .product (factorsOf b) = .ok r) : r = b := by
  rcases base.factors with ⟨-, same⟩ | ⟨fs, rfl, same, fit, -⟩
  · rw [same] at run
    rcases ordered_of_keysRise (by trivial) run with single | ⟨several, -⟩
    · exact (List.cons.inj single).1.symm
    · exact absurd rfl (several b)
  · rw [same] at run
    rcases ordered_of_keysRise fit.rising run with single | ⟨-, made⟩
    · simpa [single] using fit.several
    · exact made

private theorem ordered_scaled (base : Base b) (run : ordered .product (const c w :: factorsOf b) = .ok r) :
    r = .nary .product (const c w :: factorsOf b) := by
  obtain ⟨fs, hfs, -⟩ := bind_eq_ok.mp run
  obtain ⟨f, rest, factors⟩ := List.exists_cons_of_ne_nil base.some
  obtain ⟨k, key⟩ := orderKey_of_sorted hfs f (by simp [factors])
  have first : f.isConst = false := base.constFree f (by simp [factors])
  have rise := base.rising
  rw [factors] at rise run ⊢
  rcases ordered_of_keysRise (rise.cons_const key first) run with single | ⟨-, made⟩
  · simp at single
  · exact made

/-- The factors of a base beside a constant that is not zero are joined to the multiple. -/
private theorem joinFactors_scaledBy (base : Base b) {head : List Expr} (pos : 0 < w)
    (origin : c = 1 ∨ Word.signed c w = .ok c) (nonzero : c ≠ 0) (hhead : constantHead w c = .ok head)
    (run : joinFactors add mul head (factorsOf b) = .ok r) : r = scaledBy w c b := by
  have joined := base.joined c w
  rcases constantHead_run origin hhead with rfl | ⟨other, rfl⟩
  · obtain rfl : c = 1 := by
      by_contra other
      simp [constantHead, other, ofInt_eq pos] at hhead
    rw [joinFactors_ordered (scalable_of_const joined.unscaled) (by simp)] at run
    rw [scaledBy_one, ordered_factors base run]
  · have alone : ∀ k es, [const c w] = [k] → factorsOf b = [.nary .sum es] → False := by
      intro k es _ sum
      exact joined.undistributed c w es (by rw [sum])
    rw [joinFactors_ordered joined.unscaled alone] at run
    rw [scaledBy_of_ne nonzero other, ordered_scaled base run]

/-- Factors that are constants and those of a base make a multiple of the base. -/
theorem productStep_factors (base : Base b) (filled : es ≠ []) (typed : AllBits es w)
    (others : plainFactors es = factorsOf b) (run : productStep add mul iw es = .ok r) :
    ∃ d, constantFactor w 1 (flatten .product es) = .ok d ∧ r = scaledBy w d b := by
  have pos := typed.pos filled
  obtain ⟨d, hd, ⟨nought, rfl⟩ | ⟨nonzero, -, head, hhead, joined⟩⟩ := productStep_run filled typed run
  · obtain rfl : d = 0 := nought.resolve_right (others ▸ base.some)
    exact ⟨0, hd, by simp [scaledBy]⟩
  · rw [others] at joined
    exact ⟨d, hd, joinFactors_scaledBy base pos (constantFactor_run (.inl rfl) hd) nonzero hhead joined⟩

/-- A constant times a multiple of a base is the multiple by the product of the coefficients. -/
theorem productStep_scaledBy (base : Base b) (nonzero : c ≠ 0) (typed : HasBits (const k w) w)
    (typed' : HasBits (scaledBy w c b) w)
    (run : productStep add mul iw [const k w, scaledBy w c b] = .ok r) :
    r = scaledBy w ((k * c).bmod (Word.modulus w)) b := by
  have pos := typed.pos
  have both : AllBits [const k w, scaledBy w c b] w := by simpa using ⟨typed, typed'⟩
  have flat : flatten .product [const k w, scaledBy w c b] =
      const k w :: ((if c = 1 then [] else [const c w]) ++ factorsOf b) := by
    rw [← flatten_scaledBy base nonzero]
    rfl
  have others : plainFactors [const k w, scaledBy w c b] = factorsOf b := plainFactors_scaledBy base nonzero
  obtain ⟨d, hd, rfl⟩ := productStep_factors base (by simp) both others run
  have factor : (k * c).bmod (Word.modulus w) = d := by
    rw [flat] at hd
    by_cases one : c = 1
    · subst one
      simpa [constantFactor, Word.signed_eq pos, constantFactor_others _ base.constFree] using hd
    · simpa [constantFactor, one, Word.signed_eq pos, constantFactor_others _ base.constFree] using hd
  rw [factor]

/-- The product of the factors of a multiple of a base is that multiple. -/
theorem productStep_multiple (multiple : IsMultiple w c b e) (filled : es ≠ []) (typed : AllBits es w)
    (flat : flatten .product es = flatten .product [e]) (run : productStep add mul iw es = .ok r) :
    r = e := by
  obtain ⟨base, nonzero, inRange, rfl⟩ := multiple
  have pos := typed.pos filled
  have others : plainFactors es = factorsOf b := by
    rw [← plainFactors_scaledBy base nonzero, plainFactors, plainFactors, flat]
  obtain ⟨d, hd, rfl⟩ := productStep_factors base filled typed others run
  have factor : c = d := by
    rw [flat, flatten_scaledBy base nonzero] at hd
    by_cases one : c = 1
    · subst one
      simpa [constantFactor_others _ base.constFree] using hd
    · have wrapped := Word.bmod_of_inRange pos (inRange.resolve_left one)
      have others := constantFactor_others (w := w) c base.constFree
      simpa [constantFactor, one, Word.signed_eq pos, wrapped, others] using hd
  rw [factor]

end product

section sum

/-- `mul` makes a constant times a base the multiple of the base. -/
def MakesMultiples (mul : Build) (w : Int) : Prop :=
  ∀ c b r, Base b → HasBits b w → Word.InRange c w → mul [const c w, b] = .ok r → r = scaledBy w c b

theorem makesMultiples_productWithin (w iw : Int) (n : Nat) : MakesMultiples (productWithin iw n) w := by
  intro c b r base typed inRange run
  cases n with
  | zero => cases run
  | succ n =>
    have whole : HasBits (scaledBy w 1 b) w := by simpa [scaledBy_one] using typed
    rw [← scaledBy_one (w := w) (b := b)] at run
    have made := productStep_scaledBy base one_ne_zero (.const typed.pos inRange) whole run
    simpa [Word.bmod_of_inRange typed.pos inRange] using made

private theorem totals_constantTerm (pos : 0 < w) (run : constantTerm w (c.bmod (Word.modulus w)) = .ok ts) :
    totals w ts = single w none c ∧ ∀ t ∈ ts, ∃ d, IsTerm w none d t := by
  rcases constantTerm_cases run with ⟨nought, rfl⟩ | ⟨nonzero, k, made, rfl⟩
  · rw [← single_bmod, nought]
    simp
  · rw [ofInt_eq pos, Int.bmod_bmod] at made
    cases made
    have term : IsTerm w none (c.bmod (Word.modulus w)) (const (c.bmod (Word.modulus w)) w) :=
      ⟨by simp, nonzero, Word.inRange_bmod pos c, rfl⟩
    exact ⟨by rw [totals_const, single_bmod], List.forall_mem_singleton.mpr ⟨_, term⟩⟩

variable (multiples : MakesMultiples mul w)
include multiples

private theorem totals_scaleTerm (base : Base b) (typed : HasBits b w) (run : scaleTerm mul w b c = .ok ts) :
    totals w ts = single w (some b) c ∧ ∀ t ∈ ts, ∃ d, IsTerm w (some b) d t := by
  have pos := typed.pos
  obtain ⟨d, hd, ways⟩ := scaleTerm_cases run
  rw [Word.signed_eq pos, Except.ok.injEq] at hd
  have inRange := Word.inRange_bmod pos c
  rw [← single_bmod]
  rw [hd] at inRange ⊢
  have term (nonzero : d ≠ 0) : IsTerm w (some b) d (scaledBy w d b) :=
    ⟨by simpa using base, nonzero, inRange, rfl⟩
  rcases ways with ⟨rfl, rfl⟩ | ⟨rfl, rfl⟩ | ⟨-, nonzero, e, he, rfl⟩
  · have here := term one_ne_zero
    rw [scaledBy_one] at here
    exact ⟨here.totals, List.forall_mem_singleton.mpr ⟨1, here⟩⟩
  · simp
  · rw [multiples d b e base typed inRange he]
    exact ⟨totals_scaledBy base, List.forall_mem_singleton.mpr ⟨d, term nonzero⟩⟩

private theorem totals_scaleTerms {ms : List (Expr × Int)} (bases : ∀ p ∈ ms, Base p.1 ∧ HasBits p.1 w)
    (run : scaleTerms mul w ms = .ok ts) :
    totals w ts = (ms.map fun p => single w (some p.1) p.2).sum ∧
      ∀ t ∈ ts, ∃ p ∈ ms, ∃ d, IsTerm w (some p.1) d t := by
  induction ms generalizing ts with
  | nil =>
    cases run
    simp
  | cons m ms ih =>
    obtain ⟨⟨base, typed⟩, bases⟩ := List.forall_mem_cons.mp bases
    obtain ⟨here, hhere, run⟩ := bind_eq_ok.mp run
    obtain ⟨others, hothers, made⟩ := bind_eq_ok.mp run
    cases made
    obtain ⟨first, terms⟩ := totals_scaleTerm multiples base typed hhere
    obtain ⟨rest, terms'⟩ := ih bases hothers
    rw [totals_append, first, rest, List.map_cons, List.sum_cons]
    refine ⟨rfl, List.forall_mem_append.mpr ⟨fun t ht => ⟨m, by simp, terms t ht⟩, fun t ht => ?_⟩⟩
    obtain ⟨p, hp, term⟩ := terms' t ht
    exact ⟨p, List.mem_cons_of_mem m hp, term⟩

/-- One step of a sum writes down terms of the total of the operands: a constant, and multiples of what
the operands are multiples of. -/
theorem sumStep_terms (filled : es ≠ []) (plain : ∀ e ∈ es, Plain w e)
    (run : sumStep add mul iw es = .ok r) : ∃ ts, totals w ts = (es.map (coordinates w)).sum ∧
      (∀ t ∈ ts, ∃ k c, IsTerm w k c t ∧
        ∀ b ∈ k, ∃ e ∈ flatten .sum es, ∃ d, asMultiple e = .ok (d, b)) ∧
      (ts = [] ∧ r = const 0 w ∨ ordered .sum ts = .ok r) := by
  have typed := Plain.allBits plain
  have flat : AllBits (flatten .sum es) w := allBits_flatten typed
  have pos := typed.pos filled
  rcases sumStep_cases run with ⟨mem, -⟩ | ⟨v, t, like, hw, ht, hlike, run⟩
  · exact absurd rfl (typed _ mem).ne_uncomputable
  rw [commonWidth_eq iw flat (flatten_ne_nil typed filled)] at hw
  cases hw
  obtain ⟨t', ht', held⟩ := Terms.ofList_collects flat
  cases ht.symm.trans ht'
  have sorted := settledTerms_ofList (settled_flatten .sum fun e he => (plain e he).settled) ht
  have none := recurrences_nil (loopFree_flatten .sum fun e he => (plain e he).free) ht
  obtain ⟨c, head, scaled, merged, hc, hhead, hscaled, hmerged, rfl⟩ := collectLike_cases hlike
  rw [none] at hmerged
  cases hmerged
  rw [Word.signed_eq pos] at hc
  cases hc
  obtain ⟨first, constant⟩ := totals_constantTerm pos hhead
  obtain ⟨rest, others⟩ := totals_scaleTerms multiples
    (fun p hp => ⟨sorted.bases p hp, (held.bases p hp).1⟩) hscaled
  refine ⟨head ++ scaled, ?_, List.forall_mem_append.mpr ⟨fun t ht => ?_, fun t ht => ?_⟩, ?_⟩
  · rw [totals_append, first, rest, ← totals_flatten, ← Terms.totals_eq ht]
    rfl
  · obtain ⟨d, term⟩ := constant t ht
    exact ⟨Option.none, d, term, by simp⟩
  · obtain ⟨p, hp, d, term⟩ := others t ht
    obtain ⟨e, he, -, -, k, part⟩ := (Terms.totals_ofList ht').exists_multiple hp
    exact ⟨some p.1, d, term, by simpa using ⟨e, he, k, part⟩⟩
  · rcases joinLike_cases run with ⟨-, ⟨empty, made⟩ | ⟨-, sorted⟩⟩ | ⟨_, _, filled, -⟩
    · exact .inl ⟨empty, (Except.ok.inj ((zero_eq pos).symm.trans made)).symm⟩
    · exact .inr sorted
    · cases filled

/-- One step of a sum adds up the coordinates of the operands. -/
private theorem coordinates_sumStep (filled : es ≠ []) (plain : ∀ e ∈ es, Plain w e)
    (run : sumStep add mul iw es = .ok r) : coordinates w r = (es.map (coordinates w)).sum := by
  obtain ⟨ts, total, terms, ⟨rfl, rfl⟩ | made⟩ := sumStep_terms multiples filled plain run
  · rw [← total, coordinates_const]
    simp
  · rw [← total]
    refine coordinates_ordered (fun t ht => ?_) made
    obtain ⟨k, c, term, -⟩ := terms t ht
    exact term.opened

end sum

section recursion

theorem coordinates_sumWithin (filled : es ≠ []) (plain : ∀ e ∈ es, Plain w e)
    (run : sumWithin iw n es = .ok r) : coordinates w r = (es.map (coordinates w)).sum := by
  cases n with
  | zero => cases run
  | succ n => exact coordinates_sumStep (makesMultiples_productWithin w iw n) filled plain run

/-- A constant times a constant. -/
private theorem coordinates_productStep_const (typed : HasBits (const k w) w) (typed' : HasBits (const v w) w)
    (run : productStep add mul iw [const k w, const v w] = .ok r) :
    coordinates w r = (k : ZMod (Word.modulus w)) • coordinates w (const v w) := by
  have pos := typed.pos
  have both : AllBits [const k w, const v w] w := by simpa using ⟨typed, typed'⟩
  obtain ⟨c, hc, ⟨-, rfl⟩ | ⟨-, others, -⟩⟩ := productStep_run (by simp) both run
  · have factor : (k * v).bmod (Word.modulus w) = c := by
      simpa [flatten, constantFactor, Word.signed_eq pos] using hc
    rw [← factor, coordinates_const, coordinates_const, single_bmod, single_bmod, single_mul]
  · simp [plainFactors, flatten, isConst] at others

private theorem coordinates_distribute (products : ∀ t r, Plain w t → mul [const k w, t] = .ok r →
      coordinates w r = (k : ZMod (Word.modulus w)) • coordinates w t)
    (plain : ∀ e ∈ es, Plain w e) (run : distribute mul (const k w) es = .ok ts) :
    (ts.map (coordinates w)).sum = (k : ZMod (Word.modulus w)) • (es.map (coordinates w)).sum := by
  induction es generalizing ts with
  | nil =>
    cases run
    simp
  | cons e es ih =>
    obtain ⟨here, plain⟩ := List.forall_mem_cons.mp plain
    obtain ⟨p, hp, run⟩ := bind_eq_ok.mp run
    obtain ⟨rest, hrest, made⟩ := bind_eq_ok.mp run
    cases made
    simp only [List.map_cons, List.sum_cons, smul_add, products e p here hp, ih plain hrest]

/-- A constant times a sum: the constant is multiplied into the terms, unless it is zero or one. -/
private theorem coordinates_productStep_sum (typed : HasBits (const k w) w) (plain : Plain w (.nary .sum es))
    (parts : ∀ e ∈ es, Plain w e) (fit : OperandsFit .sum es)
    (sums : ∀ ts r, ts ≠ [] → (∀ t ∈ ts, Plain w t) → add ts = .ok r →
      coordinates w r = (ts.map (coordinates w)).sum)
    (products : ∀ t r, Plain w t → mul [const k w, t] = .ok r → Plain w r ∧
      coordinates w r = (k : ZMod (Word.modulus w)) • coordinates w t)
    (run : productStep add mul iw [const k w, .nary .sum es] = .ok r) :
    coordinates w r = (k : ZMod (Word.modulus w)) • coordinates w (.nary .sum es) := by
  have pos := typed.pos
  have inRange := typed.const_inRange
  have both : AllBits [const k w, .nary .sum es] w := by simpa using ⟨typed, plain.typed⟩
  have flat : flatten .product [const k w, .nary .sum es] = [const k w, .nary .sum es] := by
    simp [flatten]
  have others : plainFactors [const k w, .nary .sum es] = [.nary .sum es] := by
    simp [plainFactors, flat, isConst]
  obtain ⟨c, hc, made⟩ := productStep_run (by simp) both run
  obtain rfl : k = c := by
    simpa [flat, constantFactor, Word.signed_eq pos, Word.bmod_of_inRange pos inRange] using hc
  rw [others] at made
  rcases made with ⟨nought, rfl⟩ | ⟨-, -, head, hhead, run⟩
  · obtain rfl : k = 0 := nought.resolve_right (by simp)
    simp [coordinates_const]
  by_cases one : k = 1
  · subst one
    obtain rfl : [] = head := by simpa [constantHead] using hhead
    rw [joinFactors_ordered (scalable_none (by simp [isRecurrence])) (by simp)] at run
    rcases ordered_of_keysRise (by trivial) run with single | ⟨several, -⟩
    · rw [← (List.cons.inj single).1]
      simp
    · exact absurd rfl (several (.nary .sum es))
  · obtain rfl : [const k w] = head := by
      simpa [constantHead, one, ofInt_eq pos, Word.bmod_of_inRange pos inRange] using hhead
    have unscaled : scalable? ([const k w] ++ [.nary .sum es]) = none :=
      scalable_none (by simp [isRecurrence])
    obtain ⟨front, sum, ts, first, second, hts, run⟩ :=
      (joinFactors_cases unscaled run).resolve_right fun sorted => sorted.1 _ es rfl rfl
    cases first
    cases second
    have multiplied := coordinates_distribute (fun t r ht run => (products t r ht run).2) parts hts
    have plain' : ∀ t ∈ ts, Plain w t := by
      intro t ht
      obtain ⟨e, he, made⟩ := distribute_mem hts t ht
      exact (products e t (parts e he) made).1
    have several := fit.several
    have filled := distribute_ne_nil (List.ne_nil_of_length_pos (by omega)) hts
    rw [sums ts r filled plain' run, multiplied, coordinates_nary, totals_of_opened fit.opened]

/-- The coordinates of a constant times an expression. -/
theorem coordinates_productWithin (typed : HasBits (const k w) w) (plain : Plain w e)
    (run : productWithin iw n [const k w, e] = .ok r) :
    coordinates w r = (k : ZMod (Word.modulus w)) • coordinates w e := by
  induction n generalizing e r with
  | zero => cases run
  | succ n ih =>
    have front : Plain w (const k w) :=
      ⟨⟨typed, named_const⟩, .const k w, within_const k w⟩
    rcases plain_cases plain with ⟨v, rfl, -⟩ | ⟨ts, rfl, fit, parts⟩ | ⟨c, b, multiple⟩
    · exact coordinates_productStep_const typed plain.typed run
    · refine coordinates_productStep_sum typed plain parts fit
        (fun ts r filled plain run => coordinates_sumWithin filled plain run)
        (fun t r plain run => ⟨?_, ih plain run⟩) run
      exact Plain.productWithin (by simp) (by simpa using ⟨front, plain⟩) run
    · obtain ⟨base, nonzero, -, rfl⟩ := multiple
      rw [productStep_scaledBy base nonzero typed plain.typed run, coordinates_scaledBy base,
        coordinates_scaledBy base, single_bmod, single_mul]

end recursion

end ShapeRecovery.Expr
