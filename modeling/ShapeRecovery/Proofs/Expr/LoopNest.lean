import ShapeRecovery.Proofs.Expr.LoopFree

namespace ShapeRecovery.Expr

variable {add mul : Build} {es rest : List Expr} {a b e r : Expr} {l m : Loop} {v w c iw : Int}
  {L M : Loop → Prop}

theorem loops_eq_nil : e.loops = [] ↔ LoopFree e := by
  simp [Within, List.eq_nil_iff_forall_not_mem]

/-- `e` is nested in the order of its loops, and `L` holds of these. -/
structure NestOver (L : Loop → Prop) (e : Expr) : Prop where
  ordered : LoopOrdered e
  within : Within L e

/-- The loops of `L` that come before `l`. -/
def Outside (L : Loop → Prop) (l : Loop) : Loop → Prop := fun m => L m ∧ m.lt l = true

/-- The loops of `L` that come before `l`, and `l`. -/
def UpTo (L : Loop → Prop) (l : Loop) : Loop → Prop := fun m => L m ∧ (m = l ∨ m.lt l = true)

theorem NestOver.of_loopFree (free : LoopFree e) : NestOver L e :=
  ⟨.still (loops_eq_nil.mpr free), fun l hl => (free l hl).elim⟩

theorem NestOver.mono (nested : NestOver L e) (weaker : ∀ l, L l → M l) : NestOver M e :=
  ⟨nested.ordered, fun l hl => weaker l (nested.within l hl)⟩

theorem NestOver.loopFree (nested : NestOver L e) (still : e.isRecurrence = false) : LoopFree e := by
  cases nested.ordered with
  | still free => exact loops_eq_nil.mp free
  | recurrence => cases still

theorem nestOver_recurrence : NestOver L (recurrence a b l) ↔
    L l ∧ NestOver (Outside L l) a ∧ NestOver (Outside L l) b := by
  constructor
  · rintro ⟨ordered, within⟩
    obtain ⟨known, start, step⟩ := within_recurrence.mp within
    cases ordered with
    | still free => simp [loops] at free
    | recurrence outer first second =>
      refine ⟨known, ⟨first, fun m hm => ⟨start m hm, ?_⟩⟩, second, fun m hm => ⟨step m hm, ?_⟩⟩
      · exact outer m (List.mem_append_left _ hm)
      · exact outer m (List.mem_append_right _ hm)
  · rintro ⟨known, start, step⟩
    refine ⟨.recurrence (fun m hm => ?_) start.ordered step.ordered, within_recurrence.mpr ⟨known, ?_⟩⟩
    · exact (List.mem_append.mp hm).elim (fun h => (start.within m h).2) fun h => (step.within m h).2
    · exact ⟨fun m hm => (start.within m hm).1, fun m hm => (step.within m hm).1⟩

theorem nestOver_recur (known : L l) (start : NestOver (Outside L l) a) (step : NestOver (Outside L l) b) :
    NestOver L (recur a b l) :=
  recur_induction l (.of_loopFree fun _ hl => nomatch hl) (fun _ => start.mono fun _ => And.left)
    fun _ => nestOver_recurrence.mpr ⟨known, start, step⟩

theorem NestOver.flatten (op : Nary) (parts : ∀ e ∈ es, NestOver L e) :
    ∀ e ∈ flatten op es, NestOver L e := by
  intro e mem
  rcases mem_flatten mem with ⟨mem, -⟩ | ⟨fs, mem, part⟩
  · exact parts e mem
  · exact .of_loopFree (within_nary.mp ((parts _ mem).loopFree rfl) e part)

/-- Sums of nests are nests, over no other loops. -/
def AddsNests (add : Build) : Prop := ∀ L, HandsOn (NestOver L) add

/-- Multiples of nests are nests, over no other loops. -/
def ScalesNests (mul : Build) : Prop :=
  ∀ L v w e r, NestOver L e → mul [const v w, e] = .ok r → NestOver L r

theorem ScalesNests.loopFree (scales : ScalesNests mul) (free : LoopFree e)
    (run : mul [const v w, e] = .ok r) : LoopFree r :=
  (scales _ v w e r (.of_loopFree free) run).within

theorem loopFree_ofInt (run : ofInt v w = .ok r) : LoopFree r := by
  obtain ⟨u, -, rfl⟩ := ofInt_cases run
  exact within_const u w

theorem loopFree_ordered {op : Nary} (free : ∀ e ∈ es, LoopFree e) (run : ordered op es = .ok r) :
    LoopFree r :=
  ordered_all within_nary.mpr free run

private theorem within_base (within : Within L e) (run : asMultiple e = .ok (c, b)) : Within L b := by
  rcases asMultiple_cases run with ⟨w, rfl⟩ | ⟨w, fs, -, rfl, rfl⟩ | ⟨-, -, rfl⟩
  · exact within_nary.mp within b (by simp)
  · exact within_nary.mpr fun f hf => within_nary.mp within f (List.mem_cons_of_mem _ hf)
  · exact within

/-- The terms beside the recurrences have no loops. -/
private theorem collectLike_loopFree {t : Terms} {like : List Expr × List (Loop × Expr)}
    (scales : ScalesNests mul) (parts : ∀ e ∈ es, NestOver L e) (terms : Terms.ofList es = .ok t)
    (run : collectLike add mul w t = .ok like) : ∀ o ∈ like.1, LoopFree o := by
  obtain ⟨c, head, scaled, merged, -, hhead, hscaled, -, rfl⟩ := collectLike_cases run
  have bases : ∀ p ∈ t.multiples, LoopFree p.1 := by
    intro p hp
    obtain ⟨e, he, -, still, k, multiple⟩ := (Terms.totals_ofList terms).exists_multiple hp
    exact within_base ((parts e he).loopFree still) multiple
  refine List.forall_mem_append.mpr ⟨?_, ?_⟩
  · rcases constantTerm_cases hhead with ⟨-, rfl⟩ | ⟨-, k, hk, rfl⟩
    · simp
    · simpa using loopFree_ofInt hk
  · exact scaleTerms_all bases (fun p hp _ _ _ made => scales.loopFree (bases p hp) made) hscaled

section sum

variable (sums : AddsNests add)
include sums

private theorem mergeParts_nested {parts : List (Expr × Expr)} (known : L l)
    (each : ∀ p ∈ parts, NestOver (Outside L l) p.1 ∧ NestOver (Outside L l) p.2)
    (run : mergeParts add l parts = .ok r) : NestOver (UpTo L l) r := by
  have inner : ∀ m, Outside L l m → Outside (UpTo L l) l m := fun m h => ⟨⟨h.1, .inr h.2⟩, h.2⟩
  have here : UpTo L l l := ⟨known, .inl rfl⟩
  rcases mergeParts_cases run with ⟨a, b, rfl, rfl⟩ | ⟨-, start, step, hstart, hstep, rfl⟩
  · obtain ⟨first, second⟩ := each (a, b) (by simp)
    exact nestOver_recurrence.mpr ⟨here, first.mono inner, second.mono inner⟩
  · have first := sums _ _ _ (List.forall_mem_map.mpr fun p hp => (each p hp).1) hstart
    have second := sums _ _ _ (List.forall_mem_map.mpr fun p hp => (each p hp).2) hstep
    exact nestOver_recur here (first.mono inner) (second.mono inner)

private theorem mergeAll_nested {gs : List (Loop × List (Expr × Expr))} {merged : List (Loop × Expr)}
    (groups : ∀ g ∈ gs, L g.1 ∧
      ∀ p ∈ g.2, NestOver (Outside L g.1) p.1 ∧ NestOver (Outside L g.1) p.2)
    (run : mergeAll add gs = .ok merged) : ∀ p ∈ merged, L p.1 ∧ NestOver (UpTo L p.1) p.2 := by
  intro p hp
  obtain ⟨parts, hg, made⟩ := (mergeAll_mem run).mp hp
  obtain ⟨known, each⟩ := groups _ hg
  exact ⟨known, mergeParts_nested sums known each made⟩

/-- Nothing is left beside the recurrence over the innermost loop. -/
private theorem foldInto_nested (known : L l) (term : NestOver (UpTo L l) e)
    (others : ∀ o ∈ rest, NestOver (Outside L l) o) (run : foldInto add l e rest = .ok r) :
    NestOver L r := by
  have independent : ∀ o ∈ rest, o.dependsOn l = false := by
    intro o ho
    have absent : l ∉ o.loops := fun inside => by
      have before := ((others o ho).within l inside).2
      simp [Loop.lt_irrefl] at before
    simpa [dependsOn] using absent
  have moved : rest.filter (fun o => !o.dependsOn l) = rest :=
    List.filter_eq_self.mpr fun o ho => by simp [independent o ho]
  have kept : rest.filter (fun o => o.dependsOn l) = [] :=
    List.filter_eq_nil_iff.mpr fun o ho => by simp [independent o ho]
  obtain ⟨front, hfront, joined⟩ := foldInto_cases run
  rw [moved] at hfront
  obtain ⟨-, rfl⟩ := joined.resolve_right fun some => some.1 kept
  have whole : NestOver L e := term.mono fun m h => h.1
  rcases addInvariant_cases hfront with
    ⟨start, step, own, start', rfl, hstart, rfl⟩ | ⟨-, ⟨-, rfl⟩ | ⟨-, added⟩⟩
  · obtain ⟨here, first, second⟩ := nestOver_recurrence.mp term
    -- The recurrence may be over a loop before `l`, if the steps over `l` have cancelled.
    have inner : ∀ m, Outside (UpTo L l) own m → Outside L l m := by
      rintro m ⟨⟨known, -⟩, less⟩
      refine ⟨known, ?_⟩
      rcases here.2 with rfl | less'
      · exact less
      · exact Loop.lt_trans less less'
    refine nestOver_recur known (sums _ _ _ ?_ hstart) (second.mono inner)
    exact List.forall_mem_cons.mpr ⟨first.mono inner, others⟩
  · exact whole
  · refine sums L _ _ (List.forall_mem_cons.mpr ⟨whole, fun o ho => ?_⟩) added
    exact (others o ho).mono fun m h => h.1

private theorem joinLike_nested {merged : List (Loop × Expr)} (still : ∀ o ∈ rest, LoopFree o)
    (moving : ∀ p ∈ merged, L p.1 ∧ NestOver (UpTo L p.1) p.2)
    (run : joinLike add w rest merged = .ok r) : NestOver L r := by
  rcases joinLike_cases run with ⟨-, ⟨-, made⟩ | ⟨-, sorted⟩⟩ | ⟨first, more, rfl, folded⟩
  · exact .of_loopFree (loopFree_ofInt made)
  · exact .of_loopFree (loopFree_ordered still sorted)
  · obtain ⟨known, chosen⟩ := moving _ (takeInnermost_mem first more)
    refine foldInto_nested sums known chosen (List.forall_mem_append.mpr ⟨?_, ?_⟩) folded
    · exact fun o ho => .of_loopFree (still o ho)
    · intro o ho
      obtain ⟨p, hp, apart, rfl⟩ := takeInnermost_others ho
      -- Another loop comes before the innermost one.
      have before : p.1.lt (takeInnermost first more).1.1 = true := by
        have greatest := innermost_greatest first.1 (more.map Prod.fst) p.1 (List.mem_map_of_mem hp)
        by_contra other
        exact apart (Loop.eq_of_not_lt (by simpa using other) greatest)
      refine (moving p hp).2.mono fun m h => ⟨h.1, ?_⟩
      rcases h.2 with rfl | less
      · exact before
      · exact Loop.lt_trans less before

private theorem sumStep_nested (scales : ScalesNests mul) : AddsNests (sumStep add mul iw) := by
  intro L es r parts run
  rcases sumStep_cases run with ⟨-, rfl⟩ | ⟨w, t, like, -, ht, hlike, run⟩
  · exact .of_loopFree fun _ hl => nomatch hl
  have flat := NestOver.flatten .sum parts
  have still := collectLike_loopFree scales flat ht hlike
  obtain ⟨c, head, scaled, merged, -, -, -, hmerged, rfl⟩ := collectLike_cases hlike
  refine joinLike_nested sums still (mergeAll_nested sums (fun g hg => ?_) hmerged) run
  obtain ⟨some, filed⟩ := (Terms.totals_ofList ht).mem_recurrences hg
  obtain ⟨p, hp⟩ := List.exists_mem_of_ne_nil _ some
  refine ⟨(nestOver_recurrence.mp (flat _ (filed p hp))).1, fun q hq => ?_⟩
  exact (nestOver_recurrence.mp (flat _ (filed q hq))).2

end sum

section product

/-- Factors without loops are sorted, or the constant is multiplied into a sum. -/
private theorem joinFactors_loopFree (sums : AddsNests add) (scales : ScalesNests mul) {head others : List Expr}
    (front : ∀ k ∈ head, ∃ v, k = const v w) (free : ∀ f ∈ others, LoopFree f)
    (run : joinFactors add mul head others = .ok r) : LoopFree r := by
  have all : ∀ f ∈ head ++ others, LoopFree f := by
    refine List.forall_mem_append.mpr ⟨fun k hk => ?_, free⟩
    obtain ⟨v, rfl⟩ := front k hk
    exact within_const v w
  have unscaled := scalable_none fun f hf => (all f hf).still
  rcases joinFactors_cases unscaled run with ⟨k, ts, terms, rfl, rfl, multiplied, added⟩ | ⟨-, run⟩
  · obtain ⟨v, rfl⟩ := front k (by simp)
    refine (sums (fun _ => False) terms r (fun t ht => ?_) added).within
    obtain ⟨e, he, made⟩ := distribute_mem multiplied t ht
    exact .of_loopFree (scales.loopFree (within_nary.mp (free (Expr.sum ts) (by simp)) e he) made)
  · exact loopFree_ordered all run

/-- A constant is multiplied into the start and the step. -/
private theorem joinFactors_nested (scales : ScalesNests mul) {head : List Expr}
    (front : head = [] ∨ head = [const v w]) (nested : NestOver L (recurrence a b l))
    (run : joinFactors add mul head [recurrence a b l] = .ok r) : NestOver L r := by
  obtain ⟨known, start, step⟩ := nestOver_recurrence.mp nested
  rcases front with rfl | rfl
  · have alone : ordered .product [recurrence a b l] = .ok r := run
    rcases arranged_of_ordered alone with single | ⟨several, -⟩
    · cases single
      exact nested
    · simp at several
  · obtain ⟨start', hstart, run⟩ := bind_eq_ok.mp run
    obtain ⟨step', hstep, made⟩ := bind_eq_ok.mp run
    cases made
    exact nestOver_recur known (scales _ _ _ _ _ start hstart) (scales _ _ _ _ _ step hstep)

private theorem productStep_nested (sums : AddsNests add) (scales : ScalesNests mul) :
    ScalesNests (productStep add mul iw) := by
  intro L v w e r nested run
  rcases productStep_cases run with
    ⟨-, rfl⟩ | ⟨v', w', -, made⟩ | ⟨w', c, head, -, hc, -, hhead, -, run⟩
  · exact .of_loopFree fun _ hl => nomatch hl
  · exact .of_loopFree (loopFree_ofInt made)
  have front := constantHead_run (constantFactor_run (.inl rfl) hc) hhead
  cases moving : e.isRecurrence with
  | false =>
    have free : ∀ f ∈ [const v w, e], LoopFree f := by
      simpa using nested.loopFree moving
    refine .of_loopFree (joinFactors_loopFree sums scales (w := w') (fun k hk => ?_) (fun f hf => ?_) run)
    · rcases front with rfl | ⟨-, rfl⟩
      · cases hk
      · exact ⟨c, List.mem_singleton.mp hk⟩
    · exact loopFree_flatten .product free f (List.mem_of_mem_filter hf)
  | true =>
    cases e with
    | recurrence a b l => exact joinFactors_nested scales (front.imp_right And.right) nested run
    | _ => cases moving

end product

/-- Sums and multiples of nests are nests, at any depth. -/
theorem within_nested (iw : Int) (fuel : Nat) :
    AddsNests (sumWithin iw fuel) ∧ ScalesNests (productWithin iw fuel) := by
  induction fuel with
  | zero => exact ⟨fun _ _ _ _ run => (nomatch run), fun _ _ _ _ _ _ run => (nomatch run)⟩
  | succ fuel ih => exact ⟨sumStep_nested ih.1 ih.2, productStep_nested ih.1 ih.2⟩

theorem sumOf_loopOrdered (ordered : ∀ e ∈ es, LoopOrdered e) (run : sumOf iw es = .ok r) : LoopOrdered r :=
  ((within_nested iw _).1 (fun _ => True) es r (fun e he => ⟨ordered e he, within_any e⟩) run).ordered

theorem productOf_loopOrdered (ordered : LoopOrdered e) (run : productOf iw [const v w, e] = .ok r) :
    LoopOrdered r :=
  ((within_nested iw _).2 (fun _ => True) v w e r ⟨ordered, within_any e⟩ run).ordered

theorem negation_loopOrdered (ordered : LoopOrdered e) (run : negation iw e = .ok r) : LoopOrdered r := by
  obtain ⟨w, k, -, hk, run⟩ := negation_cases run
  obtain ⟨u, -, rfl⟩ := ofInt_cases hk
  exact productOf_loopOrdered ordered run

private theorem difference_loopOrdered (first : LoopOrdered a) (second : LoopOrdered b)
    (run : difference iw a b = .ok r) : LoopOrdered r := by
  obtain ⟨n, hn, run⟩ := bind_eq_ok.mp run
  exact sumOf_loopOrdered (by simpa using ⟨first, negation_loopOrdered second hn⟩) run

theorem LoopOrdered.operand (ordered : LoopOrdered e) : ∀ f ∈ e.operands, LoopOrdered f := by
  intro f hf
  cases ordered with
  | still free =>
    have inside := (hereditary_within 0 fun _ => False).below (loops_eq_nil.mp free) f hf
    exact .still (loops_eq_nil.mpr inside)
  | recurrence outer start step => rcases List.mem_pair.mp hf with rfl | rfl <;> assumption

theorem LoopOrdered.occurs {f : Expr} (ordered : LoopOrdered e) (inside : Occurs f e) : LoopOrdered f := by
  induction inside with
  | here => exact ordered
  | operand part _ ih => exact ih (ordered.operand _ part)

/-- `e` is a nest of `w` bits. No sum in it has a recurrence for a term, and if there are loops in it, it
is a recurrence over the innermost one. -/
structure IsNest (w : Int) (e : Expr) : Prop where
  typed : HasBits e w
  ordered : LoopOrdered e
  sums : ∀ ts, Occurs (.sum ts) e → ∀ t ∈ ts, t.isRecurrence = false
  innermost : e.loops ≠ [] →
    ∃ a b l, e = recurrence a b l ∧ ∀ m ∈ a.loops ++ b.loops, m.lt l = true

theorem isNest (typed : HasBits e w) (ordered : LoopOrdered e) : IsNest w e where
  typed := typed
  ordered := ordered
  sums := by
    intro ts inside t ht
    have nested : NestOver (fun _ => True) (Expr.sum ts) := ⟨ordered.occurs inside, within_any _⟩
    exact LoopFree.still (within_nary.mp (nested.loopFree rfl) t ht)
  innermost := by
    intro some
    cases ordered with
    | still free => exact absurd free some
    | recurrence outer start step => exact ⟨_, _, _, rfl, outer⟩

/-- Sums, multiples and differences of nests of `w` bits exist and are nests. -/
structure KeepsNests (iw w : Int) : Prop where
  sum : ∀ es, es ≠ [] → AllBits es w → (∀ e ∈ es, LoopOrdered e) → ∃ r, sumOf iw es = .ok r ∧ IsNest w r
  multiple : ∀ c e, HasBits e w → LoopOrdered e →
    ∃ k r, ofInt c w = .ok k ∧ productOf iw [k, e] = .ok r ∧ IsNest w r
  negation : ∀ e, HasBits e w → LoopOrdered e → ∃ r, negation iw e = .ok r ∧ IsNest w r
  difference : ∀ a b, HasBits a w → HasBits b w → LoopOrdered a → LoopOrdered b →
    ∃ r, difference iw a b = .ok r ∧ IsNest w r

/-- Sums of nests stay nests, whatever their loops are. -/
theorem keepsNests (iw w : Int) : KeepsNests iw w := by
  have still : InStep (fun _ => True) (default : Valuation) := fun _ _ _ _ => rfl
  exact {
    sum := by
      intro es some typed ordered
      obtain ⟨r, run, same⟩ := sumOf_spec iw some typed
      exact ⟨r, run, isNest same.hasBits (sumOf_loopOrdered ordered run)⟩
    multiple := by
      intro c e typed ordered
      have both : AllBits [const (c.bmod (Word.modulus w)) w, e] w := by
        simpa using ⟨hasBits_const_bmod typed.pos c, typed⟩
      obtain ⟨r, run, same⟩ := productOf_spec iw (by simp) both
      exact ⟨_, r, ofInt_eq typed.pos c, run, isNest same.hasBits (productOf_loopOrdered ordered run)⟩
    negation := by
      intro e typed ordered
      obtain ⟨r, run, bits⟩ := (negation_yields iw still typed (within_any e)).typed
      exact ⟨r, run, isNest bits (negation_loopOrdered ordered run)⟩
    difference := by
      intro a b ha hb first second
      obtain ⟨r, run, bits⟩ := (difference_yields iw still ha hb (within_any a) (within_any b)).typed
      exact ⟨r, run, isNest bits (difference_loopOrdered first second run)⟩ }

/-- A nest of two loops, one of the inner loop whose step cancels the first one's, one of the outer loop
and an unknown. -/
def crossing : List Expr :=
  [recurrence (recurrence (const 0 8) (unknown ⟨"n", 3⟩ 8) outerLoop) (const 1 8) innerLoop,
    recurrence (const 0 8) (const (-1) 8) innerLoop, recurrence (const 2 8) (const 3 8) outerLoop,
    unknown ⟨"x", 4⟩ 8]

theorem keepsNests_crossing : AllBits crossing 8 ∧ (∀ e ∈ crossing, LoopOrdered e) ∧
    ∃ r, sumOf 64 crossing = .ok r ∧ IsNest 8 r := by
  have typed : AllBits crossing 8 := by decide +kernel
  have ordered : ∀ e ∈ crossing, LoopOrdered e := by
    have single {a b : Expr} {l : Loop} (start : a.loops = []) (step : b.loops = []) :
        LoopOrdered (recurrence a b l) := .recurrence (by simp [start, step]) (.still start) (.still step)
    simp only [crossing, List.forall_mem_cons, List.not_mem_nil, false_imp_iff, implies_true, and_true]
    refine ⟨.recurrence ?_ (single rfl rfl) (.still rfl), single rfl rfl, single rfl rfl, .still rfl⟩
    decide
  exact ⟨typed, ordered, (keepsNests 64 8).sum crossing (by simp [crossing]) typed ordered⟩

end ShapeRecovery.Expr
