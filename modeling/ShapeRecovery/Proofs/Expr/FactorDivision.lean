import ShapeRecovery.Proofs.Expr.Factored

namespace ShapeRecovery.Expr

variable {es fs us : List Expr} {a b e q r x : Expr} {l : Loop} {c v w iw : Int}

section division

namespace IsUnknown

variable (known : IsUnknown w x)
include known

theorem divide_self (wide : 2 ≤ w) : divideByAtom iw x x = .ok (const 1 w, const 0 w) := by
  have pos : 0 < w := by omega
  obtain ⟨s, rfl, -⟩ := known
  have now := immediateDivision_self pos (unknown s w)
  rw [Word.bmod_of_inRange pos (one_inRange wide)] at now
  exact divideByAtom_now (.unknown pos) now

/-- No constant but zero is divided by an unknown. -/
theorem divide_const (pos : 0 < w) (nonzero : v ≠ 0) :
    divideByAtom iw x (const v w) = .ok (const 0 w, const v w) := by
  obtain ⟨s, rfl, -⟩ := known
  exact divideByAtom_const pos (immediateDivision_none (by simp) (by simpa [isZero] using nonzero) rfl)
    (by simp)

/-- Before an unknown there are only constants and unknowns, which it does not divide. -/
private theorem divide_before (pos : 0 < w) (typed : HasBits a w) (low : NotAbove a x) (other : a ≠ x)
    (nonzero : a.isZero = false) : ∃ q r, divideByAtom iw x a = .ok (q, r) ∧ r.isZero = false := by
  have rank := known.rank ▸ low.rank_le
  cases a with
  | const v b =>
    obtain rfl := typed.const_bits
    exact ⟨_, _, known.divide_const pos (by simpa [isZero] using nonzero), nonzero⟩
  | unknown s b =>
    have notOne : x.isOne = false := by
      obtain ⟨s, rfl, -⟩ := known
      rfl
    exact ⟨_, _, divideByAtom_leaf_rest ⟨rfl, typed⟩ other notOne, nonzero⟩
  | nary op es => cases op <;> simp [Expr.rank] at rank
  | cast kind e b => cases kind <;> simp [Expr.rank] at rank
  | _ => simp [Expr.rank] at rank

/-- An unknown is found among sorted factors, and what is left of them is multiplied. -/
private theorem divide_sorted (iw : Int) (wide : 2 ≤ w) (mem : x ∈ fs) (rising : KeysRise fs)
    (typed : AllBits fs w) (several : 2 ≤ fs.length) (nonzero : ∀ f ∈ fs, f.isZero = false) :
    ∃ before after, fs = before ++ x :: after ∧ ∀ q, productOf iw (before ++ const 1 w :: after) = .ok q →
      divideByAtom iw x (product fs) = .ok (q, const 0 w) := by
  have pos : 0 < w := by omega
  obtain ⟨before, after, rfl, fresh⟩ := List.eq_append_cons_of_mem mem
  refine ⟨before, after, rfl, fun q run => ?_⟩
  have low := (List.pairwise_append.mp rising.pairwise).2.2
  have left : ∀ f ∈ before, ∃ q r, divideByAtom iw x f = .ok (q, r) ∧ r.isZero = false := by
    intro f hf
    have inside : f ∈ before ++ x :: after := List.mem_append_left _ hf
    refine known.divide_before pos (typed f inside) (low f hf x (by simp)) ?_ (nonzero f inside)
    rintro rfl
    exact fresh hf
  have found := divideFactor_first left (known.divide_self wide) rfl after
  have whole : HasBits (product (before ++ x :: after)) w := HasBits.nary_iff.mpr ⟨several, typed⟩
  have later : immediateDivision? w (product (before ++ x :: after)) x = .ok none := by
    obtain ⟨s, rfl, -⟩ := known
    exact immediateDivision_none (by simp) rfl rfl
  exact divideByAtom_product whole later found run

/-- An unknown is found among the factors of a product, also where it is the only one. -/
private theorem divide_ordered (iw : Int) (wide : 2 ≤ w) (mem : x ∈ es) (proper : AllProper w es)
    (nonzero : ∀ f ∈ es, f.isZero = false) (run : ordered .product es = .ok r) :
    ∃ fs, es.Perm (x :: fs) ∧ ∀ q, productOf iw (const 1 w :: fs) = .ok q →
      divideByAtom iw x r = .ok (q, const 0 w) := by
  have pos : 0 < w := by omega
  have unit : HasBits (const 1 w) w := .const pos (one_inRange wide)
  rcases ordered_cases (List.ne_nil_of_mem mem) run with rfl | ⟨gs, sorted, several, rfl⟩
  · obtain rfl := List.mem_singleton.mp mem
    refine ⟨[], .refl _, fun q run => ?_⟩
    cases (productOf_const iw unit).symm.trans run
    exact known.divide_self wide
  · have perm := perm_of_sorted sorted
    have proper' := proper.perm perm.symm
    obtain ⟨before, after, rfl, divided⟩ := known.divide_sorted iw wide (perm.mem_iff.mpr mem)
      (keysRise_of_sorted sorted) proper'.typed several fun f hf => nonzero f (perm.mem_iff.mp hf)
    refine ⟨before ++ after, perm.symm.trans List.perm_middle, fun q run => divided q ?_⟩
    have all : AllProper w (const 1 w :: (before ++ after)) := by
      simp only [AllProper.append, AllProper.cons] at proper' ⊢
      exact ⟨⟨unit, named_const⟩, proper'.1, proper'.2.2⟩
    obtain ⟨r, first, second, -⟩ := productOf_perm iw (by simp) all List.perm_middle.symm
    rw [second, ← first, run]

end IsUnknown

/-- What the factors of `e` and unknowns are multiplied of. -/
theorem Factored.parts (factored : Factored w e c) (multiplied : Multiplied e) (proper : Proper w e)
    (known : ∀ u ∈ us, IsUnknown w u) : ∀ f ∈ written w c ++ plainFactors [e] ++ us,
      Proper w f ∧ f.isZero = false ∧ f.naryOp? ≠ some .product := by
  have pos := proper.typed.pos
  have inside : AllProper w (flatten .product [e]) := proper_flatten .product (by simpa using proper)
  rw [List.forall_mem_append, List.forall_mem_append]
  refine ⟨⟨fun k hk => ?_, fun f hf => ?_⟩, fun u hu => ?_⟩
  · rw [isConst_of_written k hk]
    refine ⟨⟨.const pos factored.inRange, named_const⟩, ?_, by simp [naryOp?]⟩
    simpa [isZero] using factored.nonzero
  · exact ⟨inside f (List.mem_of_mem_filter hf), isZero_of_isConst (isConst_of_plainFactors hf),
      opened_of_multiplied (by simpa using multiplied) f hf⟩
  · have leaf := (known u hu).leaf pos
    exact ⟨(known u hu).proper pos, leaf.isZero, leaf.opened⟩

/-- The factors of `e` and unknowns, in any order of them and beside a one, have the product of `e` and
the unknowns. -/
theorem Factored.productOf_parts (factored : Factored w e c) (iw : Int) (multiplied : Multiplied e)
    (wide : 2 ≤ w) (proper : Proper w e) (known : ∀ u ∈ us, IsUnknown w u)
    (perm : (written w c ++ plainFactors [e] ++ us).Perm fs) :
    productOf iw (const 1 w :: fs) = productOf iw (e :: us) := by
  have pos : 0 < w := by omega
  have each : ∀ u ∈ us, Leaf w u := fun u hu => (known u hu).leaf pos
  have unit : Proper w (const 1 w) := ⟨.const pos (one_inRange wide), named_const⟩
  have parts := factored.parts multiplied proper known
  have flat : flatten .product (const 1 w :: fs) = const 1 w :: fs := by
    refine flatten_opened (List.forall_mem_cons.mpr ⟨by simp [naryOp?], fun f hf => ?_⟩)
    exact (parts f (perm.mem_iff.mpr hf)).2.2
  have others : ∀ f ∈ plainFactors [e] ++ us, f.isConst = false :=
    List.forall_mem_append.mpr ⟨fun f => isConst_of_plainFactors, fun u hu => (each u hu).isConst⟩
  refine productOf_congr iw (by simp) (by simp) (AllProper.cons.mpr ⟨unit, fun f hf => ?_⟩)
    (AllProper.cons.mpr ⟨proper, allProper_unknowns pos known⟩) ?_ ?_
  · exact (parts f (perm.mem_iff.mpr hf)).1
  · rw [flat, ← constantFactor_perm pos (perm.cons (const 1 w)), List.append_assoc]
    refine Eq.trans ?_ ((constantFactor_append_leaves pos each 1 [e]).trans factored.factor).symm
    rw [constantFactor, one_mul, Word.signed_eq pos, Word.bmod_of_inRange pos (one_inRange wide), ok_bind,
      constantFactor_written pos factored.inRange, constantFactor_others c others]
  · rw [show plainFactors (e :: us) = plainFactors [e] ++ us from plainFactors_leaves each [e],
      plainFactors, flat, List.filter_cons_of_neg (by simp [isConst])]
    refine (perm.symm.filter _).trans ?_
    have front : (written w c).filter (fun o => !o.isConst) = [] :=
      List.filter_eq_nil_iff.mpr fun k hk => by rw [isConst_of_written k hk]; simp [isConst]
    rw [List.append_assoc, List.filter_append, front, List.nil_append,
      List.filter_eq_self.mpr fun f hf => by simp [others f hf]]

/-- An expression and unknowns, divided by one of them, is the product of the expression and the other
ones; and it is zero only if the expression is. -/
def Undone (iw w : Int) (x e : Expr) (us : List Expr) : Prop :=
  ∃ q r, productOf iw (e :: us) = .ok q ∧ productOf iw (e :: x :: us) = .ok r ∧
    divideByAtom iw x r = .ok (q, const 0 w) ∧ (e.isZero = false → r.isZero = false)

theorem Factored.undone (factored : Factored w e c) (iw : Int) (multiplied : Multiplied e)
    (wide : 2 ≤ w) (proper : Proper w e) (still : e.isRecurrence = false) (first : IsUnknown w x)
    (known : ∀ u ∈ us, IsUnknown w u) : Undone iw w x e us := by
  have pos : 0 < w := by omega
  have all : ∀ u ∈ x :: us, IsUnknown w u := List.forall_mem_cons.mpr ⟨first, known⟩
  have parts := factored.parts multiplied proper all
  have operands (us : List Expr) (known : ∀ u ∈ us, IsUnknown w u) : AllProper w (e :: us) :=
    AllProper.cons.mpr ⟨proper, allProper_unknowns pos known⟩
  obtain ⟨r, run, -⟩ := productOf_spec iw (List.cons_ne_nil _ _) (operands _ all).typed
  obtain ⟨q, rest, -⟩ := productOf_spec iw (List.cons_ne_nil _ _) (operands _ known).typed
  have sorted := factored.productOf_unknowns iw pos proper.typed still (List.cons_ne_nil x us) all
  rw [run] at sorted
  obtain ⟨fs, perm, divided⟩ := first.divide_ordered iw wide (by simp) (fun f hf => (parts f hf).1)
    (fun f hf => (parts f hf).2.1) sorted.symm
  have left := (List.perm_middle.symm.trans perm).cons_inv
  refine ⟨q, r, rest, run, divided q ?_, fun _ => ?_⟩
  · rw [factored.productOf_parts iw multiplied wide proper known left, rest]
  · rcases arranged_of_ordered sorted.symm with single | ⟨-, gs, -, rfl⟩
    · exact (parts r (by simp [single])).2.1
    · rfl

private theorem undone_zero (iw : Int) (pos : 0 < w) (first : IsUnknown w x) (known : ∀ u ∈ us, IsUnknown w u) :
    Undone iw w x (const 0 w) us := by
  have all : ∀ u ∈ x :: us, IsUnknown w u := List.forall_mem_cons.mpr ⟨first, known⟩
  refine ⟨_, _, productOf_zero iw pos known, productOf_zero iw pos all, ?_,
    fun some => by simp [isZero] at some⟩
  obtain ⟨s, rfl, -⟩ := first
  exact divideByAtom_now (hasBits_zero pos) (immediateDivision_zero pos (by simp) rfl)

/-- The start and the step of a recurrence are divided by themselves. -/
private theorem undone_recurrence (iw : Int) (wide : 2 ≤ w) (proper : Proper w (recurrence a b l))
    (multiplied : Multiplied (recurrence a b l)) (first : IsUnknown w x)
    (known : ∀ u ∈ us, IsUnknown w u) (start : Undone iw w x a us) (step : Undone iw w x b us) :
    Undone iw w x (recurrence a b l) us := by
  have pos : 0 < w := by omega
  have all : ∀ u ∈ x :: us, IsUnknown w u := List.forall_mem_cons.mpr ⟨first, known⟩
  obtain ⟨qs, rs, left, whole, divided, -⟩ := start
  obtain ⟨qt, rt, left', whole', divided', moving⟩ := step
  obtain ⟨moves, startM, stepM⟩ : b.isZero = false ∧ Multiplied a ∧ Multiplied b := by
    cases multiplied with
    | recurrence moves start step => exact ⟨moves, start, step⟩
  obtain ⟨s, t, hs, ht, run⟩ := productOf_recurrence iw wide proper (List.cons_ne_nil x us) all
  cases hs.symm.trans whole
  cases ht.symm.trans whole'
  obtain ⟨ha, hb, -⟩ := proper.recurrence
  have typed {e r : Expr} (here : Proper w e) (run : productOf iw (e :: x :: us) = .ok r) :
      HasBits r w := by
    obtain ⟨r', run', same⟩ := productOf_spec iw (List.cons_ne_nil _ _)
      (AllProper.cons.mpr ⟨here, allProper_unknowns pos all⟩).typed
    cases run.symm.trans run'
    exact same.hasBits
  have single : recur rs rt l = recurrence rs rt l := by
    rw [recur_typed (typed ha whole) (typed hb whole'), if_neg (by simp [moving moves])]
  refine ⟨recur qs qt l, recurrence rs rt l, ?_, single ▸ run, ?_, fun _ => rfl⟩
  · by_cases none : us = []
    · subst none
      cases (productOf_self iw wide startM ha.typed).symm.trans left
      cases (productOf_self iw wide stepM hb.typed).symm.trans left'
      rw [productOf_self iw wide multiplied proper.typed, recur_typed ha.typed hb.typed,
        if_neg (by simp [moves])]
    · obtain ⟨s', t', hs', ht', run'⟩ := productOf_recurrence iw wide proper none known
      cases hs'.symm.trans left
      cases ht'.symm.trans left'
      exact run'
  · have later : immediateDivision? w (recurrence rs rt l) x = .ok none := by
      obtain ⟨u, rfl, -⟩ := first
      exact immediateDivision_none (by simp) rfl rfl
    exact divideByAtom_recurrence (.recurrence (typed ha whole) (typed hb whole')) later divided divided'

/-- Dividing by one of the unknowns that an expression was multiplied by undoes that. -/
theorem Multiplied.undone (multiplied : Multiplied e) (iw : Int) (wide : 2 ≤ w) (proper : Proper w e)
    (first : IsUnknown w x) (known : ∀ u ∈ us, IsUnknown w u) : Undone iw w x e us := by
  have pos : 0 < w := by omega
  have sorted {e : Expr} (multiplied : Multiplied e) (proper : Proper w e)
      (still : e.isRecurrence = false) : Undone iw w x e us := by
    cases nought : e.isZero with
    | true =>
      cases e with
      | const v b =>
        obtain rfl := proper.typed.const_bits
        obtain rfl : v = 0 := by simpa [isZero] using nought
        exact undone_zero iw pos first known
      | _ => cases nought
    | false =>
      obtain ⟨c, factored⟩ := multiplied.factored wide proper.typed nought
      exact factored.undone iw multiplied wide proper still first known
  induction multiplied with
  | recurrence moves start step ihs iht =>
    obtain ⟨ha, hb, -⟩ := proper.recurrence
    exact undone_recurrence iw wide proper (.recurrence moves start step) first known (ihs ha) (iht hb)
  | const v b => exact sorted (.const v b) proper rfl
  | unknown s b => exact sorted (.unknown s b) proper rfl
  | uncomputable => exact sorted .uncomputable proper rfl
  | nary fit parts => exact sorted (.nary fit parts) proper rfl
  | quotient lhs rhs => exact sorted (.quotient lhs rhs) proper rfl
  | cast arg => exact sorted (.cast arg) proper rfl

/-- By a list of unknowns, one after the other. -/
private theorem Multiplied.divideByAll (multiplied : Multiplied e) (iw : Int) (wide : 2 ≤ w)
    (proper : Proper w e) (known : ∀ u ∈ us, IsUnknown w u) (run : productOf iw (e :: us) = .ok r) :
    divideByAll? iw us r = .ok (some e) := by
  induction us generalizing r with
  | nil =>
    cases (productOf_self iw wide multiplied proper.typed).symm.trans run
    rfl
  | cons u us ih =>
    obtain ⟨first, rest⟩ := List.forall_mem_cons.mp known
    obtain ⟨q, r', left, whole, divided, -⟩ := multiplied.undone iw wide proper first rest
    cases run.symm.trans whole
    have opened := (first.leaf (show 0 < w by omega)).opened
    have atom : divideBy iw u r = .ok (q, Expr.const 0 w) := (divideBy_atom opened).trans divided
    simp only [divideByAll?, atom, ok_bind, isZero]
    exact ih rest left

/-- Dividing by the product of the unknowns gives the expression back. -/
theorem Multiplied.quotRem_unknowns {num den : Expr} (multiplied : Multiplied e) (iw : Int) (wide : 2 ≤ w)
    (proper : Proper w e) (some : us ≠ []) (known : ∀ u ∈ us, IsUnknown w u)
    (whole : productOf iw (e :: us) = .ok num) (run : productOf iw us = .ok den) :
    quotRem iw num den = .ok (e, Expr.const 0 w) := by
  have pos : 0 < w := by omega
  rcases productOf_only_unknowns iw wide some known run with rfl | ⟨fs, perm, rfl⟩
  · -- A single unknown is not taken apart.
    have first := known den (by simp)
    have others : ∀ u ∈ ([] : List Expr), IsUnknown w u := by simp
    obtain ⟨q, r, left, whole', divided, -⟩ := multiplied.undone iw wide proper first others
    cases whole.symm.trans whole'
    cases (productOf_self iw wide multiplied proper.typed).symm.trans left
    exact (divideBy_atom (first.leaf pos).opened).trans divided
  have known' : ∀ u ∈ fs, IsUnknown w u := fun u hu => known u (perm.mem_iff.mp hu)
  have chain {f r : Expr} (multiplied : Multiplied f) (here : Proper w f)
      (run : productOf iw (f :: us) = .ok r) : divideByAll? iw fs r = .ok (Option.some f) := by
    obtain ⟨r', run', moved, -⟩ := productOf_perm iw (List.cons_ne_nil f us)
      (AllProper.cons.mpr ⟨here, allProper_unknowns pos known⟩) (perm.symm.cons f)
    exact multiplied.divideByAll iw wide here known' (by rw [moved, ← run', run])
  have found := chain multiplied proper whole
  obtain ⟨r, whole', typed⟩ : ∃ r, productOf iw (e :: us) = .ok r ∧ HasBits r w := by
    obtain ⟨r, run, same⟩ := productOf_spec iw (List.cons_ne_nil e us)
      (AllProper.cons.mpr ⟨proper, allProper_unknowns pos known⟩).typed
    exact ⟨r, run, same.hasBits⟩
  cases whole.symm.trans whole'
  by_cases same : num = product fs
  · -- Only a one times the unknowns is their product.
    have unit : Proper w (Expr.const 1 w) := ⟨.const pos (one_inRange wide), named_const⟩
    have again := chain (.const 1 w) unit ((productOf_one_unknowns iw wide some known).trans (same ▸ run))
    cases found.symm.trans again
    have now := immediateDivision_self pos (product fs)
    rw [Word.bmod_of_inRange pos (one_inRange wide)] at now
    subst same
    exact divideBy_now typed now
  by_cases nought : num.isZero = true
  · obtain ⟨u, rest, rfl⟩ := List.exists_cons_of_ne_nil some
    obtain ⟨first, others⟩ := List.forall_mem_cons.mp known
    obtain ⟨-, r, -, whole', -, moving⟩ := multiplied.undone iw wide proper first others
    cases whole.symm.trans whole'
    have none : e.isZero = true := by
      by_contra other
      simp [moving (by simpa using other)] at nought
    cases e with
    | const v b =>
      obtain rfl := proper.typed.const_bits
      obtain rfl : v = 0 := by simpa [isZero] using none
      exact divideBy_now typed (immediateDivision_zero pos same nought)
    | _ => cases none
  · exact divideBy_product typed (immediateDivision_none same (by simpa using nought) rfl) found

/-- Division by unknowns undoes the multiplication by them: the quotient is the very expression that was
multiplied, whatever it is, and nothing remains. -/
theorem quotRem_product_unknowns (iw : Int) (wide : 2 ≤ w)
    (built : Built iw (fun _ => true) (fun _ => true) e w) (named : e.Named) {us : List Symbol}
    (some : us ≠ []) (names : ∀ s ∈ us, Text.isName s.name = true) :
    ∃ num den, productOf iw (e :: us.map fun s => unknown s w) = .ok num ∧
      productOf iw (us.map fun s => unknown s w) = .ok den ∧
        quotRem iw num den = .ok (e, const 0 w) := by
  have pos : 0 < w := by omega
  have proper : Proper w e := ⟨built.hasBits, named⟩
  have known : ∀ u ∈ us.map fun s => unknown s w, IsUnknown w u :=
    List.forall_mem_map.mpr fun s hs => ⟨s, rfl, names s hs⟩
  have operands := allProper_unknowns pos known
  have filled : (us.map fun s => unknown s w) ≠ [] := by simpa using some
  obtain ⟨num, whole, -⟩ := productOf_spec iw (List.cons_ne_nil e _)
    (AllProper.cons.mpr ⟨proper, operands⟩).typed
  obtain ⟨den, run, -⟩ := productOf_spec iw filled operands.typed
  exact ⟨num, den, whole, run, built.multiplied.quotRem_unknowns iw wide proper filled known whole run⟩

def rowCount : Symbol := ⟨"m", 3⟩

def columnCount : Symbol := ⟨"n", 4⟩

/-- The places `4i + mn + nj` that two loops reach, counted by `i` outside and by `j` inside. -/
def places : Expr :=
  recurrence (recurrence (product [unknown rowCount 64, unknown columnCount 64]) (const 4 64) outerLoop)
    (unknown columnCount 64) innerLoop

theorem built_places : Built 64 (fun _ => true) (fun _ => true) places 64 := by
  have factors : ∀ e ∈ [unknown columnCount 64, unknown rowCount 64],
      Built 64 (fun _ => true) (fun _ => true) e 64 := by
    simpa using ⟨.unknown columnCount (by decide), .unknown rowCount (by decide)⟩
  have size : Built 64 (fun _ => true) (fun _ => true)
      (product [unknown rowCount 64, unknown columnCount 64]) 64 :=
    .product (by simp) factors rfl (by decide +kernel)
  have four : Built 64 (fun _ => true) (fun _ => true) (const 4 64) 64 := .const (v := 4) (by decide) rfl
  exact .recurrence innerLoop (.recurrence outerLoop size four) (.unknown columnCount (by decide))

theorem quotRem_product_unknowns_places : (2 : Int) ≤ 64 ∧
    Built 64 (fun _ => true) (fun _ => true) places 64 ∧ places.Named ∧
      [columnCount, rowCount, columnCount] ≠ [] ∧
      (∀ s ∈ [columnCount, rowCount, columnCount], Text.isName s.name = true) ∧ ∃ num den,
        productOf 64 (places :: [columnCount, rowCount, columnCount].map fun s => unknown s 64) = .ok num ∧
          productOf 64 ([columnCount, rowCount, columnCount].map fun s => unknown s 64) = .ok den ∧
            quotRem 64 num den = .ok (places, const 0 64) := by
  have named : places.Named := by decide +kernel
  have names : ∀ s ∈ [columnCount, rowCount, columnCount], Text.isName s.name = true := by
    decide +kernel
  exact ⟨by decide, built_places, named, by simp, names,
    quotRem_product_unknowns 64 (by decide) built_places named (by simp) names⟩

end division

end ShapeRecovery.Expr
