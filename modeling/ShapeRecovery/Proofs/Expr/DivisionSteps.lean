import ShapeRecovery.Expr.Division
import ShapeRecovery.Proofs.Expr.Operands

namespace ShapeRecovery.Expr

variable {es fs qs others : List Expr} {num den a b e q r : Expr} {qr qa qb : Expr × Expr} {l : Loop}
  {w n d iw : Int}

section immediate

/-- Of a division that is immediate, the dividend is the divisor or zero, or the divisor is one. -/
theorem immediateDivision_cases (run : immediateDivision? w num den = .ok (some qr)) :
    num = den ∧ one w = .ok qr.1 ∧ zero w = .ok qr.2 ∨
      num.isZero = true ∧ zero w = .ok qr.1 ∧ zero w = .ok qr.2 ∨
        den.isOne = true ∧ qr.1 = num ∧ zero w = .ok qr.2 := by
  unfold immediateDivision? at run
  split at run
  · next same =>
    obtain ⟨q, hq, run⟩ := bind_eq_ok.mp run
    obtain ⟨r, hr, made⟩ := bind_eq_ok.mp run
    cases made
    exact .inl ⟨same, hq, hr⟩
  split at run
  · next nought =>
    obtain ⟨q, hq, run⟩ := bind_eq_ok.mp run
    obtain ⟨r, hr, made⟩ := bind_eq_ok.mp run
    cases made
    exact .inr (.inl ⟨nought, hq, hr⟩)
  split at run
  · next unit =>
    obtain ⟨r, hr, made⟩ := bind_eq_ok.mp run
    cases made
    exact .inr (.inr ⟨unit, rfl, hr⟩)
  · cases run

theorem immediateDivision_self (pos : 0 < w) (e : Expr) : immediateDivision? w e e =
    .ok (some (const ((1 : Int).bmod (Word.modulus w)) w, const 0 w)) := by
  simp [immediateDivision?, one_eq pos, zero_eq pos]

theorem immediateDivision_zero (pos : 0 < w) (other : num ≠ den) (nought : num.isZero = true) :
    immediateDivision? w num den = .ok (some (const 0 w, const 0 w)) := by
  simp [immediateDivision?, other, nought, zero_eq pos]

theorem immediateDivision_one (pos : 0 < w) (other : num ≠ den) (some : num.isZero = false)
    (unit : den.isOne = true) : immediateDivision? w num den = .ok (.some (num, const 0 w)) := by
  simp [immediateDivision?, other, some, unit, zero_eq pos]

theorem immediateDivision_none (other : num ≠ den) (some : num.isZero = false)
    (notOne : den.isOne = false) : immediateDivision? w num den = .ok none := by
  simp [immediateDivision?, other, some, notOne]

theorem immediateDivision_total (pos : 0 < w) (num den : Expr) :
    ∃ o, immediateDivision? w num den = .ok o := by
  simp only [immediateDivision?, one_eq pos, zero_eq pos, ok_bind]
  split
  · exact ⟨_, rfl⟩
  split
  · exact ⟨_, rfl⟩
  split
  · exact ⟨_, rfl⟩
  · exact ⟨none, rfl⟩

theorem indivisible_eq (pos : 0 < w) (num : Expr) : indivisible w num = .ok (const 0 w, num) := by
  simp [indivisible, zero_eq pos]

end immediate

section atom

theorem divideByAtom_now (typed : HasBits num w) (now : immediateDivision? w num den = .ok (some qr)) :
    divideByAtom iw den num = .ok qr := by
  unfold divideByAtom
  simp only [typed.leads, now, ok_bind, pure_eq_ok]

/-- What sums and products treat as a whole, a division treats as a whole, too. -/
theorem divideByAtom_leaf (typed : HasBits num w) (leaf : num.isLeaf = true)
    (later : immediateDivision? w num den = .ok none) :
    divideByAtom iw den num = .ok (const 0 w, num) := by
  rw [← indivisible_eq typed.pos]
  cases num with
  | const | recurrence => simp [isLeaf] at leaf
  | nary op es =>
    cases op with
    | sum | product => simp [isLeaf] at leaf
    | _ => simp only [divideByAtom, typed.leads, later, ok_bind]
  | _ => simp only [divideByAtom, typed.leads, later, ok_bind]

theorem divideByAtom_const_later : immediateDivision? w (const n w) den = .ok none →
    divideByAtom iw den (const n w) = match den with
      | const d _ =>
        if d = 0 then indivisible w (const n w)
        else do
          let (q, r) ← Word.quotRem n d
          let q ← ofInt q w
          let r ← ofInt r w
          return (q, r)
      | _ => indivisible w (const n w) := by
  intro later
  have width : commonWidth iw [const n w, den] = .ok w := rfl
  cases den <;> simp only [divideByAtom, width, later, ok_bind]

/-- A constant is divided by a constant only. -/
theorem divideByAtom_const (pos : 0 < w)
    (later : immediateDivision? w (const n w) den = .ok none) (other : ∀ d b, den ≠ const d b) :
    divideByAtom iw den (const n w) = .ok (const 0 w, const n w) := by
  rw [divideByAtom_const_later later, ← indivisible_eq pos]
  cases den with
  | const d b => exact absurd rfl (other d b)
  | _ => rfl

theorem divideByAtom_consts (pos : 0 < w) {b : Int}
    (later : immediateDivision? w (const n w) (const d b) = .ok none) (nonzero : d ≠ 0) :
    divideByAtom iw (const d b) (const n w) = .ok (const ((n.tdiv d).bmod (Word.modulus w)) w,
      const ((n.tmod d).bmod (Word.modulus w)) w) := by
  simp [divideByAtom_const_later later, nonzero, Word.quotRem, ofInt_eq pos]

theorem divideByAtom_by_zero (pos : 0 < w) {b : Int}
    (later : immediateDivision? w (const n w) (const 0 b) = .ok none) :
    divideByAtom iw (const 0 b) (const n w) = .ok (const 0 w, const n w) := by
  simp [divideByAtom_const_later later, indivisible_eq pos]

theorem divideByAtom_recurrence (typed : HasBits (recurrence a b l) w)
    (later : immediateDivision? w (recurrence a b l) den = .ok none)
    (start : divideByAtom iw den a = .ok qa) (step : divideByAtom iw den b = .ok qb) :
    divideByAtom iw den (recurrence a b l) = .ok (recur qa.1 qb.1 l, recur qa.2 qb.2 l) := by
  rw [divideByAtom]
  simp only [typed.leads, later, start, step, ok_bind, pure_eq_ok]

theorem divideByAtom_sum_later (typed : HasBits (sum es) w)
    (later : immediateDivision? w (sum es) den = .ok none) : divideByAtom iw den (sum es) = (do
      let qrs ← divideTerms iw den es
      let q ← sumOf iw (qrs.map Prod.fst)
      let r ← sumOf iw (qrs.map Prod.snd)
      return (q, r)) := by
  simp only [divideByAtom, typed.leads, later, ok_bind]

theorem divideByAtom_sum {qrs : List (Expr × Expr)} (typed : HasBits (sum es) w)
    (later : immediateDivision? w (sum es) den = .ok none) (parts : divideTerms iw den es = .ok qrs)
    (quotient : sumOf iw (qrs.map Prod.fst) = .ok q) (rest : sumOf iw (qrs.map Prod.snd) = .ok r) :
    divideByAtom iw den (sum es) = .ok (q, r) := by
  simp only [divideByAtom_sum_later typed later, parts, quotient, rest, ok_bind, pure_eq_ok]

theorem divideByAtom_product_later (typed : HasBits (product es) w) :
    immediateDivision? w (product es) den = .ok none → divideByAtom iw den (product es) = (do
      match ← divideFactor? iw den es with
      | some qs => do
        let q ← productOf iw qs
        let r ← zero w
        return (q, r)
      | none =>
        match den with
        | unknown _ bits => divideByUnknown iw w (product es) den bits
        | _ => indivisible w (product es)) := by
  intro later
  rcases found : divideFactor? iw den es with e | _ | qs <;> cases den <;>
    simp only [divideByAtom, typed.leads, later, found, ok_bind, error_bind]

theorem divideByAtom_product (typed : HasBits (product es) w)
    (later : immediateDivision? w (product es) den = .ok none)
    (found : divideFactor? iw den es = .ok (some qs)) (run : productOf iw qs = .ok q) :
    divideByAtom iw den (product es) = .ok (q, const 0 w) := by
  simp only [divideByAtom_product_later typed later, found, run, zero_eq typed.pos, ok_bind, pure_eq_ok]

/-- A product is not divided where none of its factors is, unless by an unknown value. -/
theorem divideByAtom_product_rest (typed : HasBits (product es) w)
    (later : immediateDivision? w (product es) den = .ok none)
    (none : divideFactor? iw den es = .ok none) (known : ∀ s b, den ≠ unknown s b) :
    divideByAtom iw den (product es) = .ok (const 0 w, product es) := by
  rw [divideByAtom_product_later typed later, none, ok_bind, ← indivisible_eq typed.pos]
  cases den with
  | unknown s b => exact absurd rfl (known s b)
  | _ => rfl

theorem divideByAtom_product_unknown {s : Symbol} {b : Int} (typed : HasBits (product es) w)
    (later : immediateDivision? w (product es) (unknown s b) = .ok none)
    (none : divideFactor? iw (unknown s b) es = .ok none) :
    divideByAtom iw (unknown s b) (product es) =
      divideByUnknown iw w (product es) (unknown s b) b := by
  rw [divideByAtom_product_later typed later, none, ok_bind]

end atom

section parts

theorem divideTerms_eq_mapM (iw : Int) (den : Expr) (es : List Expr) :
    divideTerms iw den es = es.mapM (divideByAtom iw den) := by
  induction es with
  | nil => rfl
  | cons e es ih => simp only [divideTerms, ih, List.mapM_cons]

/-- The factors after a division: one of them is replaced by its quotient. -/
theorem divideFactor_run (run : divideFactor? iw den es = .ok (some qs)) :
    ∃ before e after q r, es = before ++ e :: after ∧ qs = before ++ q :: after ∧
      divideByAtom iw den e = .ok (q, r) := by
  induction es generalizing qs with
  | nil => cases run
  | cons e es ih =>
    obtain ⟨⟨q, r⟩, here, run⟩ := bind_eq_ok.mp run
    dsimp only at run
    split at run
    · cases run
      exact ⟨[], e, es, q, r, rfl, rfl, here⟩
    · obtain ⟨rest, there, run⟩ := bind_eq_ok.mp run
      injection run with run
      obtain ⟨qs', rfl, rfl⟩ := Option.map_eq_some_iff.mp run
      obtain ⟨before, f, after, q', r', rfl, rfl, found⟩ := ih there
      exact ⟨e :: before, f, after, q', r', rfl, rfl, found⟩

/-- The first factor that divides is replaced by its quotient. -/
theorem divideFactor_first
    (before : ∀ f ∈ fs, ∃ q r, divideByAtom iw den f = .ok (q, r) ∧ r.isZero = false)
    (here : divideByAtom iw den a = .ok (q, r)) (none : r.isZero = true) (others : List Expr) :
    divideFactor? iw den (fs ++ a :: others) = .ok (some (fs ++ q :: others)) := by
  induction fs with
  | nil =>
    simp only [List.nil_append, divideFactor?, here, ok_bind, none, if_true]
    rfl
  | cons f fs ih =>
    obtain ⟨first, rest⟩ := List.forall_mem_cons.mp before
    obtain ⟨q', r', run, left⟩ := first
    simp only [List.cons_append, divideFactor?, run, ok_bind, left, Bool.false_eq_true, if_false, ih rest]
    rfl

/-- Where every factor leaves something over, none is replaced. -/
theorem divideFactor_none
    (each : ∀ f ∈ fs, ∃ q r, divideByAtom iw den f = .ok (q, r) ∧ r.isZero = false) :
    divideFactor? iw den fs = .ok none := by
  induction fs with
  | nil => rfl
  | cons f fs ih =>
    obtain ⟨first, rest⟩ := List.forall_mem_cons.mp each
    obtain ⟨q, r, run, left⟩ := first
    simp only [divideFactor?, run, ok_bind, left, Bool.false_eq_true, if_false, ih rest]
    rfl

end parts

section factors

/-- Typed divisors: a product is divided by factor by factor, and any other expression as a whole. -/
theorem HasBits.divisor_induction {motive : ∀ (e : Expr) (w : Int), HasBits e w → Prop}
    (product : ∀ {es : List Expr} {w : Int} (several : 2 ≤ es.length) (parts : AllBits es w),
      (∀ e (he : e ∈ es), motive e w (parts e he)) → motive (.product es) w (.nary several parts))
    (atom : ∀ {e : Expr} {w : Int} (typed : HasBits e w), e.naryOp? ≠ some .product → motive e w typed)
    {e : Expr} {w : Int} (typed : HasBits e w) : motive e w typed := by
  induction typed with
  | @nary op es w several parts ih =>
    by_cases whole : op = .product
    · subst whole
      exact product several parts ih
    · exact atom (.nary several parts) (by simpa [naryOp?] using whole)
  | _ => exact atom _ (by simp [naryOp?])

/-- Only a product is taken apart as a divisor. -/
theorem divideBy_atom (atom : den.naryOp? ≠ some .product) :
    divideBy iw den num = divideByAtom iw den num := by
  rw [divideBy]
  rintro fs rfl
  exact atom rfl

theorem divideBy_now (typed : HasBits num w)
    (now : immediateDivision? w num (product fs) = .ok (some qr)) :
    divideBy iw (product fs) num = .ok qr := by
  simp only [divideBy, typed.leads, now, ok_bind, pure_eq_ok]

theorem divideBy_product_later (typed : HasBits num w)
    (later : immediateDivision? w num (product fs) = .ok none) : divideBy iw (product fs) num = (do
      match ← divideByAll? iw fs num with
      | some q => do
        let r ← zero w
        return (q, r)
      | none => indivisible w num) := by
  rcases found : divideByAll? iw fs num with e | _ | q <;>
    simp only [divideBy, typed.leads, later, found, ok_bind, error_bind]

theorem divideBy_product (typed : HasBits num w)
    (later : immediateDivision? w num (product fs) = .ok none)
    (found : divideByAll? iw fs num = .ok (some q)) :
    divideBy iw (product fs) num = .ok (q, const 0 w) := by
  simp only [divideBy_product_later typed later, found, zero_eq typed.pos, ok_bind, pure_eq_ok]

theorem divideBy_product_rest (typed : HasBits num w)
    (later : immediateDivision? w num (product fs) = .ok none)
    (none : divideByAll? iw fs num = .ok none) :
    divideBy iw (product fs) num = .ok (const 0 w, num) := by
  simp only [divideBy_product_later typed later, none, indivisible_eq typed.pos, ok_bind]

end factors

end ShapeRecovery.Expr
