import ShapeRecovery.Proofs.Expr.Settled

namespace ShapeRecovery.Expr

/-- What `build` makes of settled expressions is settled where `fits` holds. -/
def Keeps (fits : Check) (build : Build) : Prop :=
  ∀ es r, (∀ e ∈ es, Settled e) → fits es = true → build es = .ok r → Settled r

/-- A constant times a base is a multiple of the base. -/
def Scales (mul : Build) (w : Int) : Prop :=
  ∀ c b r, Base b → Word.signed c w = .ok c → c ≠ 0 → c ≠ 1 → mul [const c w, b] = .ok r →
    MultipleOf b r

variable {add mul : Build} {addFits mulFits : Check} {es rest head others : List Expr}
  {e b r : Expr} {v w c iw : Int} {l : Loop}

section terms

/-- The terms of a sum of settled expressions: multiples of different bases, and settled
recurrences. -/
structure SettledTerms (t : Terms) : Prop where
  bases : ∀ p ∈ t.multiples, Base p.1
  distinct : (t.multiples.map Prod.fst).Nodup
  recurrences : ∀ e ∈ t.recurrences.flatMap groupTerms, Settled e
  loops : (t.recurrences.map Prod.fst).Nodup

private theorem addMultiple_keys (b : Expr) (c : Int) (ms : List (Expr × Int)) :
    (Terms.addMultiple b c ms).map Prod.fst =
      if b ∈ ms.map Prod.fst then ms.map Prod.fst else ms.map Prod.fst ++ [b] := by
  induction ms with
  | nil => simp [Terms.addMultiple]
  | cons m ms ih =>
    unfold Terms.addMultiple
    split
    · next same => simp [same]
    · next other =>
      have other' : ¬ b = m.1 := fun h => other h.symm
      simp only [List.map_cons, ih, List.mem_cons, other', false_or]
      split <;> simp

theorem addMultiple_nodup {ms : List (Expr × Int)} (distinct : (ms.map Prod.fst).Nodup) (b : Expr)
    (c : Int) : ((Terms.addMultiple b c ms).map Prod.fst).Nodup := by
  rw [addMultiple_keys]
  split
  · exact distinct
  · next fresh => exact distinct.append (by simp) (by simpa using fresh)

private theorem settledTerms_insert {t t' : Terms} (sorted : SettledTerms t) (settled : Settled e)
    (opened : e.naryOp? ≠ some .sum) (run : Terms.insert t e = .ok t') : SettledTerms t' := by
  rcases Terms.insert_cases run with
    ⟨v, w, rfl, rfl⟩ | ⟨a, b, l, rfl, rfl⟩ | ⟨other, still, c, b, part, rfl⟩
  · exact ⟨sorted.bases, sorted.distinct, sorted.recurrences, sorted.loops⟩
  · refine ⟨sorted.bases, sorted.distinct, fun f hf => ?_, Terms.addRecurrence_nodup sorted.loops⟩
    have filed := (Terms.addRecurrence_perm l (a, b) t.recurrences).mem_iff.mp hf
    exact List.forall_mem_cons.mpr ⟨settled, sorted.recurrences⟩ f filed
  · have base := base_of_asMultiple settled other still opened part
    refine ⟨?_, addMultiple_nodup sorted.distinct b c, sorted.recurrences, sorted.loops⟩
    intro p hp
    rcases Terms.addMultiple_mem hp with same | ⟨q, hq, same⟩
    · exact same ▸ base
    · exact same ▸ sorted.bases q hq

theorem settledTerms_ofList {t : Terms} (settled : ∀ e ∈ es, Settled e ∧ e.naryOp? ≠ some .sum)
    (run : Terms.ofList es = .ok t) : SettledTerms t := by
  refine Terms.ofList_induction
    (motive := fun es t => (∀ e ∈ es, Settled e ∧ e.naryOp? ≠ some .sum) → SettledTerms t)
    (fun _ => by constructor <;> simp [Terms.empty]) ?_ run settled
  intro es e t t' ih step settled
  obtain ⟨before, last⟩ := List.forall_mem_append.mp settled
  obtain ⟨here, opened⟩ := last e (List.mem_singleton_self e)
  exact settledTerms_insert (ih before) here opened step

end terms

section like

private theorem constantTerm_front (run : constantTerm w c = .ok head) (wrapped : Word.signed c w = .ok c) :
    Front .sum head := by
  rcases constantTerm_cases run with ⟨-, rfl⟩ | ⟨nonzero, k, hk, rfl⟩
  · exact front_nil _
  · cases (ofInt_of_signed wrapped).symm.trans hk
    exact front_singleton nonzero

private theorem scaleTerm_run (products : Scales mul w) (base : Base b) {ts : List Expr}
    (run : scaleTerm mul w b c = .ok ts) : ts = [] ∨ ∃ e, ts = [e] ∧ MultipleOf b e := by
  obtain ⟨u, hu, ⟨-, rfl⟩ | ⟨-, rfl⟩ | ⟨other, nonzero, e, he, rfl⟩⟩ := scaleTerm_cases run
  · exact .inr ⟨b, rfl, base.multipleOf⟩
  · exact .inl rfl
  · exact .inr ⟨e, rfl, products u b e base (signed_signed hu) nonzero other he⟩

/-- The terms with their coefficients put back are multiples of bases, of each base at most one. -/
private theorem scaleTerms_run (products : Scales mul w) {ms : List (Expr × Int)} {ts : List Expr}
    (bases : ∀ p ∈ ms, Base p.1) (distinct : (ms.map Prod.fst).Nodup)
    (run : scaleTerms mul w ms = .ok ts) :
    (∀ e ∈ ts, ∃ p ∈ ms, MultipleOf p.1 e) ∧ Unlike ts := by
  induction ms generalizing ts with
  | nil =>
    cases run
    exact ⟨by simp, .nil⟩
  | cons m ms ih =>
    obtain ⟨here, run⟩ := bind_eq_ok.mp run
    obtain ⟨first, run⟩ := run
    obtain ⟨rest, hrest, made⟩ := bind_eq_ok.mp run
    cases made
    obtain ⟨base, bases⟩ := List.forall_mem_cons.mp bases
    obtain ⟨fresh, distinct⟩ := List.nodup_cons.mp distinct
    obtain ⟨multiples, unlike⟩ := ih bases distinct hrest
    have later : ∀ e ∈ rest, ∃ p ∈ m :: ms, MultipleOf p.1 e := by
      intro e he
      obtain ⟨p, hp, multiple⟩ := multiples e he
      exact ⟨p, List.mem_cons_of_mem _ hp, multiple⟩
    rcases scaleTerm_run products base first with rfl | ⟨e, rfl, multiple⟩
    · exact ⟨later, unlike⟩
    · refine ⟨List.forall_mem_cons.mpr ⟨⟨m, by simp, multiple⟩, later⟩, List.pairwise_cons.mpr ⟨?_, unlike⟩⟩
      intro f hf c d x y hx hy _ _ same
      obtain ⟨p, hp, multiple'⟩ := multiples f hf
      obtain ⟨k, hk⟩ := multiple.multiple
      obtain ⟨k', hk'⟩ := multiple'.multiple
      rw [hk] at hx
      rw [hk'] at hy
      cases hx
      cases hy
      exact fresh (same ▸ List.mem_map_of_mem hp)

private theorem settled_mergeParts (sums : Keeps addFits add) {parts : List (Expr × Expr)}
    (settled : ∀ e ∈ groupTerms (l, parts), Settled e) (fits : mergePartsFit addFits parts = true)
    (run : mergeParts add l parts = .ok e) : Settled e := by
  have each : ∀ p ∈ parts, Settled p.1 ∧ Settled p.2 := by
    intro p hp
    have whole := (settled _ (List.mem_map_of_mem hp)).operands
    exact ⟨whole p.1 (by simp [Expr.operands]), whole p.2 (by simp [Expr.operands])⟩
  rcases mergeParts_cases run with ⟨a, b, rfl, rfl⟩ | ⟨several, start, step, hstart, hstep, rfl⟩
  · exact settled _ (by simp [groupTerms])
  · have both : addFits (parts.map Prod.fst) = true ∧ addFits (parts.map Prod.snd) = true := by
      unfold mergePartsFit at fits
      split at fits
      · exact absurd rfl (several _)
      · simpa using fits
    refine settled_recur (sums _ _ ?_ both.1 hstart) (sums _ _ ?_ both.2 hstep) l
    · exact List.forall_mem_map.mpr fun p hp => (each p hp).1
    · exact List.forall_mem_map.mpr fun p hp => (each p hp).2

private theorem settled_mergeAll (sums : Keeps addFits add) {gs : List (Loop × List (Expr × Expr))}
    {merged : List (Loop × Expr)}
    (settled : ∀ e ∈ gs.flatMap groupTerms, Settled e)
    (fits : (gs.all fun g => mergePartsFit addFits g.2) = true) (run : mergeAll add gs = .ok merged) :
    ∀ p ∈ merged, Settled p.2 := by
  intro p hp
  obtain ⟨ps, hg, made⟩ := (mergeAll_mem run).mp hp
  refine settled_mergeParts sums (fun e he => ?_) (List.all_eq_true.mp fits _ hg) made
  exact settled e (List.mem_flatMap.mpr ⟨_, hg, he⟩)

end like

section fold

theorem runsOver_iff : e.runsOver l = true ↔ ∃ a b, e = recurrence a b l := by
  cases e <;> simp [runsOver]

theorem isRecurrence_of_runsOver (runs : e.runsOver l = true) : e.isRecurrence = true := by
  obtain ⟨a, b, rfl⟩ := runsOver_iff.mp runs
  rfl

/-- No term is a multiple of a recurrence. -/
def Still (es : List Expr) : Prop :=
  ∀ e ∈ es, ∀ c x, asMultiple e = .ok (c, x) → x.isRecurrence = false

/-- No two terms are recurrences over one loop. -/
def OverDifferentLoops (es : List Expr) : Prop :=
  es.Pairwise fun e f => ∀ l, e.runsOver l = true → f.runsOver l = false

theorem OverDifferentLoops.perm {fs : List Expr} (apart : OverDifferentLoops es) (perm : fs.Perm es) :
    OverDifferentLoops fs := by
  refine (perm.pairwise_iff ?_).mpr apart
  intro e f apart l runs
  by_contra again
  simp [apart l (by simpa using again)] at runs

/-- One recurrence may be replaced by another one over its loop. -/
theorem OverDifferentLoops.replaced {f : Expr} (apart : OverDifferentLoops (e :: es))
    (before : e.runsOver l = true) (after : f.runsOver l = true) : OverDifferentLoops (f :: es) := by
  obtain ⟨first, others⟩ := List.pairwise_cons.mp apart
  refine List.pairwise_cons.mpr ⟨fun o ho m runs => ?_, others⟩
  obtain ⟨a, b, rfl⟩ := runsOver_iff.mp after
  obtain rfl : l = m := by simpa [runsOver] using runs
  exact first o ho l before

private theorem overDifferentLoops_of_distinct {merged : List (Loop × Expr)}
    (distinct : (merged.map Prod.fst).Nodup) (moving : ∀ p ∈ merged, p.2.runsOver p.1 = true) :
    OverDifferentLoops (merged.map Prod.snd) := by
  refine List.pairwise_map.mpr ((List.pairwise_map.mp distinct).imp_of_mem ?_)
  intro p q hp hq other l runs
  obtain ⟨a, b, same⟩ := runsOver_iff.mp (moving p hp)
  obtain ⟨c, d, same'⟩ := runsOver_iff.mp (moving q hq)
  rw [same, runsOver, decide_eq_true_eq] at runs
  rw [same', runsOver, decide_eq_false_iff_not]
  exact fun again => other (runs.trans again.symm)

/-- Recurrences over different loops may stand beside each other and beside terms that may. -/
private theorem unlike_beside {moving : List Expr} (each : ∀ e ∈ moving, e.isRecurrence = true)
    (apart : OverDifferentLoops moving) (unlike : Unlike rest) (still : Still rest) :
    Unlike (moving ++ rest) := by
  have whole : ∀ e ∈ moving, ∃ a b l, e = recurrence a b l := by
    intro e he
    have recurs := each e he
    cases e with
    | recurrence a b l => exact ⟨a, b, l, rfl⟩
    | _ => cases recurs
  refine List.pairwise_append.mpr ⟨apart.imp_of_mem ?_, unlike, ?_⟩
  · intro e f he hf apart c d x y hx hy _ _ same
    obtain ⟨a, b, l, rfl⟩ := whole e he
    obtain ⟨a', b', l', rfl⟩ := whole f hf
    cases hx
    cases hy
    cases same
    simpa [runsOver] using apart l
  · intro e he f hf c d x y hx hy _ _ same
    obtain ⟨a, b, l, rfl⟩ := whole e he
    have base := still f hf d y hy
    cases hx
    simp [← same, isRecurrence] at base

private theorem addInvariantFits_still {moved : List Expr} (still : e.isRecurrence = false)
    (some : moved ≠ []) : addInvariantFits addFits moved e = addFits (e :: moved) := by
  cases e with
  | recurrence => cases still
  | _ => simp [addInvariantFits, some]

private theorem settled_addInvariant (sums : Keeps addFits add) {moved : List Expr}
    (settled : ∀ e ∈ moved, Settled e) (here : Settled e)
    (fits : addInvariantFits addFits moved e = true) (run : addInvariant add l moved e = .ok r) :
    Settled r ∧ (e.isRecurrence = true → r.runsOver l = true) := by
  rcases addInvariant_cases run with
    ⟨a, b, m, start', rfl, hstart, rfl⟩ | ⟨still, ⟨-, rfl⟩ | ⟨some, added⟩⟩
  · cases here with
    | recurrence moves start step =>
      have first := sums _ _ (List.forall_mem_cons.mpr ⟨start, settled⟩) fits hstart
      refine ⟨settled_recur first step l, fun _ => ?_⟩
      simp [recur_settled first step, moves, runsOver]
  · exact ⟨here, fun recurs => by simp [still] at recurs⟩
  · rw [addInvariantFits_still still some] at fits
    exact ⟨sums _ _ (List.forall_mem_cons.mpr ⟨here, settled⟩) fits added, fun recurs => by
      simp [still] at recurs⟩

/-- The recurrence of the innermost loop may be sorted in beside terms that change with the loop. -/
private theorem sortable_kept {others kept : List Expr} {f : Expr} (plain : Sortable .sum rest)
    (still : Still rest) (settled : ∀ o ∈ f :: others, Settled o) (moving : ∀ o ∈ f :: others, o.isRecurrence = true)
    (apart : OverDifferentLoops (f :: others)) (sub : kept.Sublist (rest ++ others))
    (changes : ∀ o ∈ kept, o.dependsOn l = true) : Sortable .sum (f :: kept) := by
  have opened : ∀ o ∈ f :: others, o.isConst = false ∧ o.naryOp? ≠ some .sum := by
    intro o ho
    have recurs := moving o ho
    cases o with
    | recurrence => exact ⟨rfl, by simp [naryOp?]⟩
    | _ => cases recurs
  obtain ⟨here, others'⟩ := List.forall_mem_cons.mp opened
  obtain ⟨settled, settled'⟩ := List.forall_mem_cons.mp settled
  refine (front_nil .sum).sortable ?_ (fun _ => ?_) (fun product => by cases product)
  · refine List.forall_mem_cons.mpr ⟨⟨settled, here⟩, fun o ho => ?_⟩
    have other := isConst_dependsOn (changes o ho)
    rcases List.mem_append.mp (sub.subset ho) with mem | mem
    · exact ⟨plain.settled o mem, other, plain.opened o mem⟩
    · exact ⟨settled' o mem, other, (others' o mem).2⟩
  · have all := unlike_beside moving apart (plain.unlike rfl) still
    have perm : (f :: (rest ++ others)).Perm (f :: others ++ rest) := List.perm_append_comm.cons f
    exact (all.perm perm).sublist (sub.cons_cons f)

private theorem settled_joinLike (sums : Keeps addFits add) {merged : List (Loop × Expr)}
    (plain : Sortable .sum rest) (still : Still rest) (settled : ∀ p ∈ merged, Settled p.2)
    (distinct : (merged.map Prod.fst).Nodup) (fits : joinLikeFits addFits rest merged = true)
    (run : joinLike add w rest merged = .ok r) : Settled r := by
  rcases joinLike_cases run with ⟨-, ⟨-, made⟩ | ⟨some, sorted⟩⟩ | ⟨first, more, rfl, folded⟩
  · exact settled_ofInt made
  · exact plain.settled_ordered some sorted
  obtain ⟨e, others, taken, mem, perm⟩ := takeInnermost_spec distinct
  simp only [joinLikeFits, taken, Bool.and_eq_true, Bool.or_eq_true] at folded fits
  obtain ⟨invariants, alone⟩ := fits
  obtain ⟨f, hf, joined⟩ := foldInto_cases folded
  have parts : ∀ o ∈ e :: others, Settled o := fun o ho =>
    List.forall_mem_map.mpr settled o (perm.mem_iff.mpr ho)
  obtain ⟨here, parts⟩ := List.forall_mem_cons.mp parts
  have all := List.forall_mem_append.mpr ⟨plain.settled, parts⟩
  obtain ⟨front, moves⟩ :=
    settled_addInvariant sums (fun o ho => all o (List.mem_of_mem_filter ho)) here invariants hf
  rcases joined with ⟨-, rfl⟩ | ⟨some, sorted⟩
  · exact front
  -- Terms are kept beside the innermost recurrence only where no steps have cancelled.
  have moving := List.all_eq_true.mp (alone.resolve_left (by simpa using some))
  have apart := (overDifferentLoops_of_distinct distinct moving).perm perm.symm
  have recurs : ∀ o ∈ others, o.isRecurrence = true := fun o ho => by
    obtain ⟨p, hp, rfl⟩ := List.mem_map.mp (perm.mem_iff.mpr (List.mem_cons_of_mem e ho))
    exact isRecurrence_of_runsOver (moving p hp)
  have runs := moves (isRecurrence_of_runsOver (moving _ mem))
  refine (sortable_kept plain still (List.forall_mem_cons.mpr ⟨front, parts⟩) ?_ ?_
    List.filter_sublist fun o ho => (List.mem_filter.mp ho).2).settled_ordered (by simp) sorted
  · exact List.forall_mem_cons.mpr ⟨isRecurrence_of_runsOver runs, recurs⟩
  · exact apart.replaced (moving _ mem) runs

private theorem settled_sumStep (iw : Int) (sums : Keeps addFits add) (products : ∀ w, Scales mul w) :
    Keeps (sumStepFits add mul addFits iw) (sumStep add mul iw) := by
  intro es r settled fits run
  rcases sumStep_cases run with ⟨mem, -⟩ | ⟨w, t, like, hw, ht, hlike, run⟩
  · exact absurd rfl (settled _ mem).ne_uncomputable
  simp only [sumStepFits, hw, ht, hlike, checkAfter_ok, Bool.and_eq_true] at fits
  obtain ⟨merging, joining⟩ := fits
  obtain ⟨c, head, scaled, merged, hc, hhead, hscaled, hmerged, rfl⟩ := collectLike_cases hlike
  have sorted := settledTerms_ofList (settled_flatten .sum settled) ht
  obtain ⟨multiples, unlike⟩ := scaleTerms_run (products w) sorted.bases sorted.distinct hscaled
  have front := constantTerm_front hhead (signed_signed hc)
  have plain : Sortable .sum (head ++ scaled) := by
    refine front.sortable (fun e he => ?_) (fun _ => unlike) (fun product => by cases product)
    obtain ⟨p, -, multiple⟩ := multiples e he
    exact ⟨multiple.settled, multiple.other, multiple.noSum⟩
  have still : Still (head ++ scaled) := by
    intro e he k x hx
    rcases List.mem_append.mp he with he | he
    · obtain ⟨v, b, rfl, -⟩ := front e he
      cases List.mem_singleton.mp he
      cases hx
      rfl
    · obtain ⟨p, hp, multiple⟩ := multiples e he
      obtain ⟨k', hk'⟩ := multiple.multiple
      cases hk'.symm.trans hx
      exact (sorted.bases p hp).still
  have moving := settled_mergeAll sums sorted.recurrences merging hmerged
  exact settled_joinLike sums plain still moving (mergeAll_keys hmerged ▸ sorted.loops) joining run

end fold

section product

private theorem settled_distribute (products : Keeps mulFits mul) {k : Expr} {ts : List Expr}
    (front : Settled k) (settled : ∀ e ∈ es, Settled e) (fits : (es.all fun e => mulFits [k, e]) = true)
    (run : distribute mul k es = .ok ts) : ∀ e ∈ ts, Settled e := by
  intro t ht
  obtain ⟨e, he, made⟩ := distribute_mem run t ht
  exact products _ _ (by simpa using ⟨front, settled e he⟩) (List.all_eq_true.mp fits e he) made

private theorem constantHead_front (origin : c = 1 ∨ Word.signed c w = .ok c) (nonzero : c ≠ 0)
    (run : constantHead w c = .ok head) : Front .product head := by
  rcases constantHead_run origin run with rfl | ⟨other, rfl⟩
  · exact front_nil _
  · exact front_singleton (not_or.mpr ⟨nonzero, other⟩)

/-- Factors that are neither scaled nor multiplied out may be sorted. -/
private theorem sortable_factors (front : Front .product head)
    (plain : ∀ e ∈ others, Settled e ∧ e.isConst = false ∧ e.naryOp? ≠ some .product)
    (unscaled : scalable? (head ++ others) = none)
    (alone : ∀ k ts, head = [k] → others = [nary .sum ts] → False) :
    Sortable .product (head ++ others) :=
  front.sortable plain (fun sum => by cases sum) fun _ _ perm =>
    front.joined (fun e he => (plain e he).2.1) unscaled alone perm

private theorem settled_joinFactors (sums : Keeps addFits add) (products : Keeps mulFits mul)
    (front : Front .product head) (filled : others ≠ [])
    (plain : ∀ e ∈ others, Settled e ∧ e.isConst = false ∧ e.naryOp? ≠ some .product)
    (fits : joinFactorsFit mul addFits mulFits head others = true)
    (run : joinFactors add mul head others = .ok r) : Settled r := by
  have all : ∀ e ∈ head ++ others, Settled e := by
    refine List.forall_mem_append.mpr ⟨fun e he => ?_, fun e he => (plain e he).1⟩
    obtain ⟨c, w, rfl, -⟩ := front e he
    rw [List.mem_singleton.mp he]
    exact .const c w
  cases scaled : scalable? (head ++ others) with
  | some parts =>
    obtain ⟨a, b, l⟩ := parts
    obtain ⟨scale, moving⟩ := List.forall_mem_append.mp fun e he =>
      all e ((scalable_spec scaled).subset he)
    have operands := (moving _ (List.mem_singleton_self _)).operands
    simp only [joinFactorsFit, scaled, Bool.and_eq_true] at fits
    obtain ⟨start, step, hstart, hstep, rfl⟩ := joinFactors_scaled scaled run
    refine settled_recur (products _ _ ?_ fits.1 hstart) (products _ _ ?_ fits.2 hstep) l
    · exact List.forall_mem_append.mpr ⟨scale, by simpa using operands a (by simp [Expr.operands])⟩
    · exact List.forall_mem_append.mpr ⟨scale, by simpa using operands b (by simp [Expr.operands])⟩
  | none =>
    rcases joinFactors_cases scaled run with ⟨k, ts, terms, rfl, rfl, hterms, added⟩ | ⟨alone, run⟩
    · simp only [joinFactorsFit, scaled, Bool.and_eq_true] at fits
      simp only [hterms, checkAfter_ok] at fits
      have parts : ∀ e ∈ ts, Settled e := (plain _ (List.mem_singleton_self _)).1.operands
      have multiplied := settled_distribute products (all k (by simp)) parts fits.1 hterms
      exact sums _ _ multiplied fits.2 added
    · have sortable := sortable_factors front plain scaled alone
      exact sortable.settled_ordered (List.append_ne_nil_of_right_ne_nil _ filled) run

private theorem settled_productStep (iw : Int) (sums : Keeps addFits add) (products : Keeps mulFits mul) :
    Keeps (productStepFits mul addFits mulFits iw) (productStep add mul iw) := by
  intro es r settled fits run
  rcases productStep_cases run with
    ⟨mem, -⟩ | ⟨v, w, -, made⟩ | ⟨w, c, head, hw, hc, nonzero, hhead, filled, run⟩
  · exact absurd rfl (settled _ mem).ne_uncomputable
  · exact settled_ofInt made
  have flat := settled_flatten .product settled
  have front := constantHead_front (constantFactor_run (.inl rfl) hc) nonzero hhead
  have some := List.isEmpty_eq_false_iff.mpr filled
  simp only [productStepFits, hw, hc, hhead, checkAfter_ok, nonzero, some] at fits
  refine settled_joinFactors sums products front filled ?_ (by simpa using fits) run
  intro e he
  obtain ⟨mem, other⟩ := List.mem_filter.mp he
  obtain ⟨here, opened⟩ := flat e mem
  exact ⟨here, by simpa using other, opened⟩

end product

/-- Within any depth, sums and products of settled expressions are settled where the check holds. -/
theorem within_settled (iw : Int) (fuel : Nat) :
    Keeps (sumFitsWithin iw fuel) (sumWithin iw fuel) ∧
      Keeps (productFitsWithin iw fuel) (productWithin iw fuel) := by
  induction fuel with
  | zero =>
    constructor <;>
    · intro es r _ _ run
      cases run
  | succ fuel ih =>
    obtain ⟨sums, products⟩ := ih
    refine ⟨settled_sumStep iw sums fun w => ?_, settled_productStep iw sums products⟩
    intro c b r base wrapped nonzero other run
    cases fuel with
    | zero => cases run
    | succ fuel => exact base.productStep_multipleOf wrapped nonzero other run

end ShapeRecovery.Expr
