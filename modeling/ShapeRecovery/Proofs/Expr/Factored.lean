import ShapeRecovery.Proofs.Expr.Monomial
import ShapeRecovery.Proofs.Expr.Multiplied
import ShapeRecovery.Proofs.Expr.OperandOrder

namespace ShapeRecovery.Expr

variable {es fs us : List Expr} {a b e r : Expr} {l : Loop} {c v w iw : Int}

/-- An unknown of `w` bits with a valid name. -/
def IsUnknown (w : Int) (e : Expr) : Prop :=
  ∃ s, e = unknown s w ∧ Text.isName s.name = true

namespace IsUnknown

theorem proper (pos : 0 < w) (known : IsUnknown w e) : Proper w e := by
  obtain ⟨s, rfl, name⟩ := known
  exact ⟨.unknown pos, named_unknown.mpr name⟩

theorem leaf (pos : 0 < w) (known : IsUnknown w e) : Leaf w e := by
  obtain ⟨s, rfl, -⟩ := known
  exact ⟨rfl, .unknown pos⟩

theorem dependsOn (known : IsUnknown w e) : e.dependsOn l = false := by
  obtain ⟨s, rfl, -⟩ := known
  simp [Expr.dependsOn, loops]

theorem rank (known : IsUnknown w e) : e.rank = 1 := by
  obtain ⟨s, rfl, -⟩ := known
  rfl

end IsUnknown

theorem allProper_unknowns (pos : 0 < w) (known : ∀ u ∈ us, IsUnknown w u) : AllProper w us :=
  fun u hu => (known u hu).proper pos

section factors

theorem Leaf.opened (leaf : Leaf w e) : e.naryOp? ≠ some .product := by
  intro product
  obtain ⟨ops, same⟩ := naryOp_eq.mp product
  exact leaf.ne_nary (.inr rfl) ops same

theorem plainFactors_leaves (each : ∀ u ∈ us, Leaf w u) (es : List Expr) :
    plainFactors (es ++ us) = plainFactors es ++ us := by
  rw [plainFactors, flatten_append, flatten_opened fun u hu => (each u hu).opened, List.filter_append,
    filter_leaves each, plainFactors]

theorem constantFactor_append_leaves (pos : 0 < w) (each : ∀ u ∈ us, Leaf w u) (c : Int)
    (es : List Expr) : constantFactor w c (flatten .product (es ++ us)) =
      constantFactor w c (flatten .product es) := by
  rw [flatten_append, flatten_opened fun u hu => (each u hu).opened,
    constantFactor_perm pos List.perm_append_comm, constantFactor_leaves each]

/-- The constant that is written before the factors of a product. -/
def written (w c : Int) : List Expr := if c = 1 then [] else [const c w]

private theorem constantHead_eq (pos : 0 < w) (inRange : Word.InRange c w) :
    constantHead w c = .ok (written w c) := by
  unfold constantHead written
  split
  · rfl
  · rw [ofInt_eq pos, Word.bmod_of_inRange pos inRange]
    rfl

theorem constantFactor_written (pos : 0 < w) (inRange : Word.InRange c w) (rest : List Expr) :
    constantFactor w 1 (written w c ++ rest) = constantFactor w c rest := by
  unfold written
  split
  · next one =>
    rw [one]
    rfl
  · simp [constantFactor, Word.signed_eq pos, Word.bmod_of_inRange pos inRange]

theorem isConst_of_written : ∀ k ∈ written w c, k = const c w := by
  unfold written
  split <;> simp

/-- A product in terms of its constant and of the other factors; what is multiplied on the way are
products again. -/
theorem productOf_step (iw : Int) (some : es ≠ []) (typed : AllBits es w)
    (factor : constantFactor w 1 (flatten .product es) = .ok c) (inRange : Word.InRange c w) :
    ∃ add mul : Build, (∀ fs r, fs ≠ [] → AllBits fs w → mul fs = .ok r → productOf iw fs = .ok r) ∧
      productOf iw es = if c = 0 then zero w else
        if (plainFactors es).isEmpty then ofInt c w else
          joinFactors add mul (written w c) (plainFactors es) := by
  have step := productStep_eq (sumWithin iw (4 * weight (product es) + 3))
    (productWithin iw (4 * weight (product es) + 3)) iw some typed
  obtain ⟨c', head, hc, hhead, -, step⟩ := step
  cases hc.symm.trans factor
  cases hhead.symm.trans (constantHead_eq (typed.pos some) inRange)
  exact ⟨_, _, fun fs r some typed run => productOf_of_within some typed run, step⟩

/-- Factors that would not be joined further, with the constant `c` among them, are sorted. -/
theorem productOf_ordered (iw : Int) (some : es ≠ []) (typed : AllBits es w)
    (factor : constantFactor w 1 (flatten .product es) = .ok c) (inRange : Word.InRange c w)
    (nonzero : c ≠ 0) (filled : plainFactors es ≠ []) (joined : Joined (written w c ++ plainFactors es)) :
    productOf iw es = ordered .product (written w c ++ plainFactors es) := by
  have alone : ∀ k ts, written w c = [k] → plainFactors es = [sum ts] → False := by
    intro k ts front single
    have constant := isConst_of_written (w := w) (c := c) k (by simp [front])
    exact joined.undistributed c w ts (by rw [front, single, constant]; rfl)
  obtain ⟨add, mul, -, step⟩ := productOf_step iw some typed factor inRange
  rw [step, if_neg nonzero, if_neg (by simpa using filled), joinFactors_ordered joined.unscaled alone]

/-- The factors of `e` and its constant `c`, as they stand in order; they would not be joined further. -/
structure Factored (w : Int) (e : Expr) (c : Int) : Prop where
  factor : constantFactor w 1 (flatten .product [e]) = .ok c
  inRange : Word.InRange c w
  nonzero : c ≠ 0
  joined : Joined (written w c ++ plainFactors [e])
  rising : KeysRise (written w c ++ plainFactors [e])
  whole : e = const c w ∨ plainFactors [e] ≠ [] ∧
    (written w c ++ plainFactors [e] = [e] ∨ e = product (written w c ++ plainFactors [e]))

theorem one_inRange (wide : 2 ≤ w) : Word.InRange 1 w := (small_one wide).inRange

/-- A recurrence alone is not scaled. -/
private theorem scalable_single (e : Expr) : scalable? [e] = none := by
  cases e with
  | recurrence => rfl
  | _ => exact scalable_none (by simp [isRecurrence])

/-- What is no product and no constant is its only factor. -/
theorem factored_single (wide : 2 ≤ w) (opened : e.naryOp? ≠ some .product) (other : e.isConst = false) :
    Factored w e 1 := by
  have flat : flatten .product [e] = [e] := flatten_opened (by simpa using opened)
  have plain : plainFactors [e] = [e] := by simp [plainFactors, flat, other]
  have all : written w 1 ++ plainFactors [e] = [e] := by rw [plain]; rfl
  exact {
    factor := by rw [flat, constantFactor_others 1 (by simpa using other)]
    inRange := one_inRange wide
    nonzero := one_ne_zero
    joined := by
      rw [all]
      exact ⟨scalable_single e, by simp⟩
    rising := by
      rw [all]
      trivial
    whole := .inr ⟨by simp [plain], .inl all⟩ }

theorem plainFactors_const : plainFactors [const v w] = [] := by
  simp [plainFactors, flatten, isConst]

theorem factored_const (wide : 2 ≤ w) (inRange : Word.InRange v w) (nonzero : v ≠ 0) :
    Factored w (const v w) v := by
  have pos : 0 < w := by omega
  have plain := plainFactors_const (v := v) (w := w)
  have short : written w v = [] ∨ written w v = [const v w] := by
    unfold written
    split <;> simp
  exact {
    factor := by simp [flatten, constantFactor, Word.signed_eq pos, Word.bmod_of_inRange pos inRange]
    inRange := inRange
    nonzero := nonzero
    joined := by
      rw [plain, List.append_nil]
      refine ⟨scalable_none fun k hk => by rw [isConst_of_written k hk]; rfl, ?_⟩
      intro u b es both
      rcases short with none | one <;> simp_all
    rising := by
      rw [plain, List.append_nil]
      rcases short with none | one
      · rw [none]
        trivial
      · rw [one]
        trivial
    whole := .inl rfl }

private theorem factored_product (wide : 2 ≤ w) (typed : AllBits fs w) (fit : OperandsFit .product fs)
    (joined : Joined fs) : ∃ c, Factored w (product fs) c := by
  have pos : 0 < w := by omega
  have many := fit.several
  have filled : fs ≠ [] := List.ne_nil_of_length_pos (by omega)
  obtain ⟨f, rest, rfl⟩ := List.exists_cons_of_ne_nil filled
  have flat : flatten .product [product (f :: rest)] = f :: rest := by simp [flatten]
  have others : ∀ e ∈ rest, e.isConst = false := fit.constantFirst
  have kept : (rest.filter fun e => !e.isConst) = rest :=
    List.filter_eq_self.mpr fun e he => by simp [others e he]
  obtain ⟨c, factor, inRange, nonzero, all⟩ : ∃ c,
      constantFactor w 1 (flatten .product [product (f :: rest)]) = .ok c ∧ Word.InRange c w ∧ c ≠ 0 ∧
        written w c ++ plainFactors [product (f :: rest)] = f :: rest := by
    rw [plainFactors, flat]
    cases constant : f.isConst with
    | false =>
      refine ⟨1, constantFactor_others 1 ?_, one_inRange wide, one_ne_zero, ?_⟩
      · exact List.forall_mem_cons.mpr ⟨constant, others⟩
      · simp [written, constant, kept]
    | true =>
      cases f with
      | const v b =>
        have here := typed (.const v b) (by simp)
        obtain rfl := here.const_bits
        have trivial := fit.notTrivial v b (by simp)
        obtain ⟨nonzero, other⟩ := not_or.mp trivial
        have factor : constantFactor b 1 (const v b :: rest) = .ok v := by
          simp [constantFactor, Word.signed_eq pos, Word.bmod_of_inRange pos here.const_inRange,
            constantFactor_others _ others]
        refine ⟨v, factor, here.const_inRange, nonzero, ?_⟩
        rw [written, if_neg other, List.filter_cons_of_neg (by simp [isConst]), kept]
        rfl
      | _ => cases constant
  have filled : plainFactors [product (f :: rest)] ≠ [] := by
    intro none
    have short := congrArg List.length all
    simp only [none, List.append_nil, written] at short
    split at short <;> simp_all
  exact ⟨c, {
    factor := factor
    inRange := inRange
    nonzero := nonzero
    joined := by rwa [all]
    rising := by
      rw [all]
      exact fit.rising
    whole := .inr ⟨filled, .inr (by rw [all])⟩ }⟩

/-- Everything other than zero is a constant and other factors. -/
theorem Multiplied.factored (multiplied : Multiplied e) (wide : 2 ≤ w) (typed : HasBits e w)
    (some : e.isZero = false) : ∃ c, Factored w e c := by
  cases multiplied with
  | const v b =>
    obtain rfl := typed.const_bits
    exact ⟨v, factored_const wide typed.const_inRange (by simpa [isZero] using some)⟩
  | @nary op fs fit parts =>
    by_cases product : op = .product
    · subst product
      obtain ⟨fit, joined⟩ := fit rfl
      exact factored_product wide (HasBits.nary_iff.mp typed).2 fit joined
    · exact ⟨1, factored_single wide (by simpa [naryOp?] using product) rfl⟩
  | uncomputable => cases typed
  | recurrence | unknown | quotient | cast => exact ⟨1, factored_single wide (by simp [naryOp?]) rfl⟩

theorem productOf_const (iw : Int) (typed : HasBits (const v w) w) :
    productOf iw [const v w] = .ok (const v w) := by
  have pos := typed.pos
  have same := Word.bmod_of_inRange pos typed.const_inRange
  have factor : constantFactor w 1 (flatten .product [const v w]) = .ok v := by
    simp [flatten, constantFactor, Word.signed_eq pos, same]
  obtain ⟨add, mul, -, step⟩ := productOf_step iw (List.cons_ne_nil _ _) (by simpa using typed) factor
    typed.const_inRange
  rw [step, plainFactors_const, zero_eq pos, ofInt_eq pos, same]
  split
  · next nought => rw [nought]
  · rfl

/-- A product of one expression is the expression. -/
theorem productOf_self (iw : Int) (wide : 2 ≤ w) (multiplied : Multiplied e) (typed : HasBits e w) :
    productOf iw [e] = .ok e := by
  by_cases constant : ∃ v, e = const v w
  · obtain ⟨v, rfl⟩ := constant
    exact productOf_const iw typed
  have some : e.isZero = false := by
    cases e with
    | const v b => exact absurd ⟨v, by rw [typed.const_bits]⟩ constant
    | _ => rfl
  obtain ⟨c, factored⟩ := multiplied.factored wide typed some
  obtain ⟨filled, whole⟩ := factored.whole.resolve_left fun same => constant ⟨c, same⟩
  have single : AllBits [e] w := by simpa using typed
  obtain ⟨r, run, -⟩ := productOf_spec iw (List.cons_ne_nil _ _) single
  rw [run]
  rw [productOf_ordered iw (by simp) single factored.factor factored.inRange factored.nonzero filled
    factored.joined] at run
  rcases ordered_of_keysRise factored.rising run with alone | ⟨several, made⟩
  · rcases whole with same | same
    · cases same.symm.trans alone
      rfl
    · rw [same, alone] at typed
      exact absurd (HasBits.nary_iff.mp typed).1 (by simp)
  · rcases whole with same | same
    · exact absurd same (several e)
    · rw [made, ← show e = nary .product _ from same]

/-- Factors that are one recurrence are all of a recurrence. -/
theorem Factored.several (factored : Factored w e c) (typed : HasBits e w) (still : e.isRecurrence = false)
    {f : Expr} (alone : written w c ++ plainFactors [e] = [f]) : f.isRecurrence = false := by
  rcases factored.whole with rfl | ⟨-, same | same⟩
  · rw [plainFactors_const, List.append_nil] at alone
    have constant := isConst_of_written (w := w) (c := c) f (by simp [alone])
    rw [constant]
    rfl
  · cases same.symm.trans alone
    exact still
  · rw [same, alone] at typed
    exact absurd (HasBits.nary_iff.mp typed).1 (by simp)

/-- Unknowns stand beside the other factors. -/
theorem Factored.productOf_unknowns (factored : Factored w e c) (iw : Int) (pos : 0 < w)
    (typed : HasBits e w) (still : e.isRecurrence = false) (some : us ≠ [])
    (known : ∀ u ∈ us, IsUnknown w u) :
    productOf iw (e :: us) = ordered .product (written w c ++ plainFactors [e] ++ us) := by
  have each : ∀ u ∈ us, Leaf w u := fun u hu => (known u hu).leaf pos
  have all : AllBits (e :: us) w := by simpa using ⟨typed, fun u hu => (each u hu).typed⟩
  have factors : plainFactors (e :: us) = plainFactors [e] ++ us := plainFactors_leaves each [e]
  have factor : constantFactor w 1 (flatten .product (e :: us)) = .ok c :=
    (constantFactor_append_leaves pos each 1 [e]).trans factored.factor
  have joined : Joined (written w c ++ plainFactors [e] ++ us) := by
    refine ⟨scalable_append factored.joined.unscaled (fun _ => factored.several typed still)
      fun u hu => (each u hu).isRecurrence, ?_⟩
    intro v b ts whole
    obtain ⟨u, hu⟩ := List.exists_mem_of_ne_nil us some
    have mem : u ∈ [const v b, sum ts] := whole ▸ List.mem_append_right _ hu
    rcases List.mem_pair.mp mem with rfl | rfl
    · exact absurd (each _ hu).isConst (by simp [isConst])
    · exact (each _ hu).ne_nary (.inl rfl) ts rfl
  rw [List.append_assoc, ← factors] at joined ⊢
  exact productOf_ordered iw (by simp) all factor factored.inRange factored.nonzero
    (by simp [factors, some]) joined

theorem recur_typed (start : HasBits a w) (step : HasBits b w) (l : Loop) :
    recur a b l = if b.isZero then a else recurrence a b l := by
  simp [recur, start.ne_uncomputable, step.ne_uncomputable]

/-- A recurrence is scaled by unknowns. -/
private theorem scalable_unknowns (a b : Expr) (l : Loop) (some : us ≠ []) (known : ∀ u ∈ us, IsUnknown w u) :
    scalable? (recurrence a b l :: us) = Option.some (a, b, l) ∧
      ((recurrence a b l :: us).filter fun f => !f.isRecurrence) = us := by
  have still : ∀ u ∈ us, u.isRecurrence = false := by
    intro u hu
    obtain ⟨s, rfl, -⟩ := known u hu
    rfl
  have scale : ((recurrence a b l :: us).filter fun f => !f.isRecurrence) = us := by
    rw [List.filter_cons_of_neg (by simp [isRecurrence])]
    exact List.filter_eq_self.mpr fun u hu => by simp [still u hu]
  refine ⟨scalable_eq_some.mpr ⟨?_, by rwa [scale], ?_⟩, scale⟩
  · rw [List.filter_cons_of_pos rfl, List.filter_eq_nil_iff.mpr fun u hu => by simp [still u hu]]
  · rw [scale]
    exact fun u hu => (known u hu).dependsOn

/-- A recurrence takes unknown factors into its start and its step. -/
theorem productOf_recurrence (iw : Int) (wide : 2 ≤ w) (proper : Proper w (recurrence a b l))
    (some : us ≠ []) (known : ∀ u ∈ us, IsUnknown w u) : ∃ start step,
      productOf iw (a :: us) = .ok start ∧ productOf iw (b :: us) = .ok step ∧
        productOf iw (recurrence a b l :: us) = .ok (recur start step l) := by
  have pos := proper.typed.pos
  obtain ⟨first, second, -⟩ := proper.recurrence
  have each : ∀ u ∈ us, Leaf w u := fun u hu => (known u hu).leaf pos
  have operands := allProper_unknowns pos known
  have all : AllProper w (recurrence a b l :: us) := AllProper.cons.mpr ⟨proper, operands⟩
  have plain : plainFactors (recurrence a b l :: us) = recurrence a b l :: us :=
    plainFactors_leaves each [recurrence a b l]
  have factor : constantFactor w 1 (flatten .product (recurrence a b l :: us)) = .ok 1 :=
    constantFactor_append_leaves pos each 1 [recurrence a b l]
  obtain ⟨scaled, scale⟩ := scalable_unknowns a b l some known
  obtain ⟨r, run, -⟩ := productOf_spec iw (List.cons_ne_nil _ us) all.typed
  obtain ⟨add, mul, products, step⟩ := productOf_step iw (List.cons_ne_nil _ us) all.typed factor
    (one_inRange wide)
  have joined : joinFactors add mul [] (recurrence a b l :: us) = .ok r := by
    rw [← run, step, plain]
    rfl
  simp only [joinFactors, List.nil_append, scaled, scale] at joined
  obtain ⟨start, hstart, joined⟩ := bind_eq_ok.mp joined
  obtain ⟨last, hlast, made⟩ := bind_eq_ok.mp joined
  cases made
  have found {e r : Expr} (here : Proper w e) (made : mul (us ++ [e]) = .ok r) :
      productOf iw (e :: us) = .ok r := by
    have both : AllProper w (us ++ [e]) := AllProper.append.mpr ⟨operands, by simpa using here⟩
    obtain ⟨r', run', moved, -⟩ := productOf_perm iw (by simp) both (List.perm_append_singleton e us)
    rw [moved, ← run', products _ r (by simp) both.typed made]
  exact ⟨start, last, found first hstart, found second hlast, run⟩

theorem productOf_zero (iw : Int) (pos : 0 < w) (known : ∀ u ∈ us, IsUnknown w u) :
    productOf iw (const 0 w :: us) = .ok (const 0 w) := by
  have each : ∀ u ∈ us, Leaf w u := fun u hu => (known u hu).leaf pos
  have typed : AllBits (const 0 w :: us) w := by
    simpa using ⟨hasBits_zero pos, fun u hu => (each u hu).typed⟩
  have factor : constantFactor w 1 (flatten .product (const 0 w :: us)) = .ok 0 := by
    refine (constantFactor_append_leaves pos each 1 [const 0 w]).trans ?_
    simp [flatten, constantFactor, Word.signed_eq pos]
  obtain ⟨add, mul, -, step⟩ := productOf_step iw (List.cons_ne_nil _ us) typed factor
    (hasBits_zero pos).const_inRange
  rw [step, if_pos rfl, zero_eq pos]

/-- The product of unknowns is the only one, or they are its sorted factors. -/
theorem productOf_only_unknowns (iw : Int) (wide : 2 ≤ w) (some : us ≠ []) (known : ∀ u ∈ us, IsUnknown w u)
    (run : productOf iw us = .ok r) : us = [r] ∨ ∃ fs, fs.Perm us ∧ r = product fs := by
  have pos : 0 < w := by omega
  have each : ∀ u ∈ us, Leaf w u := fun u hu => (known u hu).leaf pos
  have plain : plainFactors us = us := plainFactors_leaves each []
  have joined : Joined us := by
    refine ⟨scalable_none fun u hu => (each u hu).isRecurrence, ?_⟩
    rintro v b ts rfl
    exact absurd (each (const v b) (by simp)).isConst (by simp [isConst])
  rw [productOf_ordered iw some (fun u hu => (each u hu).typed)
    (constantFactor_append_leaves pos each 1 []) (one_inRange wide) one_ne_zero (by rwa [plain])
    (by rwa [plain]), plain] at run
  rcases ordered_cases some run with single | ⟨fs, sorted, -, rfl⟩
  · exact .inl single
  · exact .inr ⟨fs, perm_of_sorted sorted, rfl⟩

/-- A one makes no difference to a product of unknowns. -/
theorem productOf_one_unknowns (iw : Int) (wide : 2 ≤ w) (some : us ≠ [])
    (known : ∀ u ∈ us, IsUnknown w u) : productOf iw (Expr.const 1 w :: us) = productOf iw us := by
  have pos : 0 < w := by omega
  have each : ∀ u ∈ us, Leaf w u := fun u hu => (known u hu).leaf pos
  have unit : Proper w (Expr.const 1 w) := ⟨.const pos (one_inRange wide), named_const⟩
  have operands := allProper_unknowns pos known
  have all := AllProper.cons.mpr ⟨unit, operands⟩
  refine productOf_congr iw (List.cons_ne_nil _ us) some all operands ?_ ?_
  · refine (constantFactor_append_leaves pos each 1 [Expr.const 1 w]).trans
      (Eq.trans ?_ (constantFactor_append_leaves pos each 1 []).symm)
    simp [flatten, constantFactor, Word.signed_eq pos, Word.bmod_of_inRange pos (one_inRange wide)]
  · exact .of_eq ((plainFactors_leaves each [Expr.const 1 w]).trans (plainFactors_leaves each []).symm)

end factors

end ShapeRecovery.Expr
