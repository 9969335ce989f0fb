import ShapeRecovery.Proofs.Expr.Depth
import ShapeRecovery.Proofs.Expr.LoopOrder
import ShapeRecovery.Proofs.Expr.Proper
import ShapeRecovery.Proofs.Expr.TermTotals
import ShapeRecovery.Proofs.Expr.UniqueOrder

namespace ShapeRecovery.Expr

/-- `build` makes proper expressions of proper operands, the same of the same operands in any order. -/
structure AnyOrder (w : Int) (build : Build) : Prop where
  proper : ∀ {es r}, es ≠ [] → AllProper w es → build es = .ok r → Proper w r
  perm : ∀ {es fs r}, es ≠ [] → AllProper w es → es.Perm fs → build es = .ok r → build fs = .ok r

variable {add mul : Build} {w c iw : Int} {es fs rest rest' : List Expr} {e r : Expr} {l : Loop}

section terms

theorem flatten_perm (op : Nary) (perm : es.Perm fs) : (flatten op es).Perm (flatten op fs) := by
  rw [flatten_eq_flatMap op es, flatten_eq_flatMap op fs]
  exact perm.flatMap_right _

/-- The terms `t` and `t'` hold the same, in another order. -/
structure Terms.Alike (t t' : Terms) : Prop where
  constant : t.constant = t'.constant
  multiples : t.multiples.Perm t'.multiples
  recurrences : ∀ l ps, (l, ps) ∈ t.recurrences → ∃ ps', (l, ps') ∈ t'.recurrences ∧ ps.Perm ps'

theorem constantsOf_perm (perm : es.Perm fs) : (constantsOf es).Perm (constantsOf fs) := by
  have values (es : List Expr) : constantsOf es = es.flatMap fun e => constantsOf [e] := by
    induction es with
    | nil => rfl
    | cons e es ih => cases e <;> simp [constantsOf, ih]
  rw [values es, values fs]
  exact perm.flatMap_right _

theorem Terms.Totals.alike {t t' : Terms} (h : Totals es t) (h' : Totals fs t') (perm : es.Perm fs) :
    Alike t t' where
  constant := by rw [h.constant, h'.constant, (constantsOf_perm perm).sum_eq]
  multiples := by
    refine (List.perm_ext_iff_of_nodup h.distinct.of_map h'.distinct.of_map).mpr fun p => ?_
    have moved : (coefficientsOf p.1 es).Perm (coefficientsOf p.1 fs) := perm.filterMap _
    rw [h.multiples, h'.multiples, moved.sum_eq, ne_eq, ne_eq, ← List.length_eq_zero_iff,
      ← List.length_eq_zero_iff, moved.length_eq]
  recurrences := by
    intro l ps mem
    obtain ⟨some, rfl⟩ := (h.recurrences l ps).mp mem
    have moved : (partsOf l es).Perm (partsOf l fs) := perm.filterMap _
    refine ⟨partsOf l fs, (h'.recurrences l _).mpr ⟨fun none => some ?_, rfl⟩, moved⟩
    exact List.perm_nil.mp (none ▸ moved)

end terms

section sum

private theorem scaleTerms_perm {ms ms' : List (Expr × Int)} {ts : List Expr} (perm : ms.Perm ms')
    (run : scaleTerms mul w ms = .ok ts) : ∃ ts', scaleTerms mul w ms' = .ok ts' ∧ ts.Perm ts' := by
  obtain ⟨parts, each, rfl⟩ := scaleTerms_iff.mp run
  obtain ⟨parts', each', moved⟩ := List.perm_comp_forall₂ perm.symm each
  exact ⟨parts'.flatten, scaleTerms_iff.mpr ⟨parts', each', rfl⟩, moved.symm.flatten⟩

private theorem proper_scaleTerms (products : AnyOrder w mul) {ms : List (Expr × Int)} {ts : List Expr}
    (pos : 0 < w) (bases : ∀ p ∈ ms, Proper w p.1) (run : scaleTerms mul w ms = .ok ts) :
    AllProper w ts := by
  refine scaleTerms_all bases (fun p hp u e wrapped made => ?_) run
  have front : Proper w (const u w) := proper_ofInt pos (ofInt_of_signed wrapped)
  exact products.proper (by simp) (by simpa using ⟨front, bases p hp⟩) made

/-- The parts of recurrences over `l` are proper. -/
theorem proper_parts {ps : List (Expr × Expr)} (proper : AllProper w (groupTerms (l, ps))) :
    AllProper w (ps.map Prod.fst) ∧ AllProper w (ps.map Prod.snd) := by
  have each : ∀ p ∈ ps, Proper w p.1 ∧ Proper w p.2 := fun p hp =>
    have parts := (proper (.recurrence p.1 p.2 l) (List.mem_map_of_mem hp)).recurrence
    ⟨parts.1, parts.2.1⟩
  exact ⟨List.forall_mem_map.mpr fun p hp => (each p hp).1,
    List.forall_mem_map.mpr fun p hp => (each p hp).2⟩

private theorem proper_mergeParts (sums : AnyOrder w add) {ps : List (Expr × Expr)} (some : ps ≠ [])
    (proper : AllProper w (groupTerms (l, ps))) (run : mergeParts add l ps = .ok e) : Proper w e := by
  rcases mergeParts_cases run with ⟨a, b, rfl, rfl⟩ | ⟨-, start, step, hstart, hstep, rfl⟩
  · exact proper _ (by simp [groupTerms])
  · obtain ⟨starts, steps⟩ := proper_parts proper
    obtain ⟨p, hp⟩ := List.exists_mem_of_ne_nil ps some
    have loop := (proper _ (List.mem_map_of_mem hp)).recurrence.2.2
    refine proper_recur (sums.proper ?_ starts hstart) (sums.proper ?_ steps hstep) loop
    · simpa using some
    · simpa using some

theorem mergeParts_perm (sums : AnyOrder w add) {ps ps' : List (Expr × Expr)}
    (proper : AllProper w (groupTerms (l, ps))) (perm : ps.Perm ps') (some : ps ≠ [])
    (run : mergeParts add l ps = .ok e) : mergeParts add l ps' = .ok e := by
  match ps, ps' with
  | [p], ps' =>
    obtain rfl := List.perm_singleton.mp perm.symm
    exact run
  | [], ps' => exact absurd rfl some
  | p :: q :: ps, [] => cases List.perm_nil.mp perm
  | p :: q :: ps, [p'] => cases List.perm_singleton.mp perm
  | p :: q :: ps, p' :: q' :: ps' =>
    obtain ⟨starts, steps⟩ := proper_parts proper
    obtain ⟨start, hstart, run⟩ := bind_eq_ok.mp run
    obtain ⟨step, hstep, made⟩ := bind_eq_ok.mp run
    cases made
    have start' := sums.perm (by simp) starts (perm.map Prod.fst) hstart
    have step' := sums.perm (by simp) steps (perm.map Prod.snd) hstep
    simp only [mergeParts, start', step', ok_bind]
    rfl

/-- What the terms of a sum are made of is proper, and filed by different loops. -/
structure Terms.Filed (w : Int) (t : Terms) : Prop where
  bases : ∀ p ∈ t.multiples, Proper w p.1
  groups : AllProper w (t.recurrences.flatMap groupTerms)
  loops : (t.recurrences.map Prod.fst).Nodup
  filled : ∀ g ∈ t.recurrences, g.2 ≠ []

theorem Terms.Collects.filed {t : Terms} (held : t.Collects w es) (proper : AllProper w es) :
    t.Filed w := by
  have built := held.built _ _ fun e he => (proper e he).builtOver
  refine ⟨fun p hp => ⟨(held.bases p hp).1, ?_⟩, fun e he => ⟨held.groups e he, ?_⟩, held.distinct,
    held.filled⟩
  · have mem : multiple w p ∈ t.all w :=
      List.mem_append_right _ (List.mem_append_left _ (List.mem_map_of_mem hp))
    exact named_of_builtOver (builtOver_multiple.mp (built _ mem))
  · exact named_of_builtOver (built e (List.mem_append_right _ (List.mem_append_right _ he)))

theorem Terms.Filed.group {t : Terms} (filed : t.Filed w) {ps : List (Expr × Expr)}
    (mem : (l, ps) ∈ t.recurrences) : AllProper w (groupTerms (l, ps)) := fun e he =>
  filed.groups e (List.mem_flatMap.mpr ⟨(l, ps), mem, he⟩)

theorem Terms.Filed.loop {t : Terms} (filed : t.Filed w) (mem : l ∈ t.recurrences.map Prod.fst) :
    Text.isName l.name.name = true := by
  obtain ⟨⟨l, ps⟩, hg, rfl⟩ := List.mem_map.mp mem
  obtain ⟨p, hp⟩ := List.exists_mem_of_ne_nil ps (filed.filled _ hg)
  exact (filed.group hg _ (List.mem_map_of_mem hp)).recurrence.2.2

private theorem proper_mergeAll (sums : AnyOrder w add) {t : Terms} {merged : List (Loop × Expr)}
    (filed : t.Filed w) (run : mergeAll add t.recurrences = .ok merged) :
    AllProper w (merged.map Prod.snd) := by
  refine List.forall_mem_map.mpr fun p hp => ?_
  obtain ⟨ps, hg, made⟩ := (mergeAll_mem run).mp hp
  exact proper_mergeParts sums (filed.filled _ hg) (filed.group hg) made

private theorem mergeAll_alike (sums : AnyOrder w add) {t t' : Terms} {merged : List (Loop × Expr)}
    (filed : t.Filed w) (distinct : (t'.recurrences.map Prod.fst).Nodup) (alike : t.Alike t')
    (back : t'.Alike t) (run : mergeAll add t.recurrences = .ok merged) :
    ∃ merged', mergeAll add t'.recurrences = .ok merged' ∧ merged.Perm merged' := by
  -- A group of `t'` has the parts of a group of `t`, which have been merged.
  have known : ∀ l ps', (l, ps') ∈ t'.recurrences →
      ∃ e, (l, e) ∈ merged ∧ mergeParts add l ps' = .ok e := by
    intro l ps' mem
    obtain ⟨ps, hg, moved⟩ := back.recurrences l ps' mem
    obtain ⟨⟨l', e⟩, hp, key, made⟩ := exists_of_forall₂ (mergeAll_run run).flip hg
    cases key
    exact ⟨e, hp, mergeParts_perm sums (filed.group hg) moved.symm (filed.filled _ hg) made⟩
  obtain ⟨merged', run'⟩ : ∃ merged', mergeAll add t'.recurrences = .ok merged' := by
    rw [mergeAll_eq_mapM]
    refine mapM_total fun g hg => ?_
    obtain ⟨e, -, made⟩ := known g.1 g.2 hg
    exact ⟨(g.1, e), by rw [made, ok_bind, pure_eq_ok]⟩
  have nodup : merged.Nodup := List.Nodup.of_map Prod.fst (mergeAll_keys run ▸ filed.loops)
  have nodup' : merged'.Nodup := List.Nodup.of_map Prod.fst (mergeAll_keys run' ▸ distinct)
  refine ⟨merged', run', (List.perm_ext_iff_of_nodup nodup nodup').mpr fun p => ⟨fun hp => ?_, fun hp => ?_⟩⟩
  · obtain ⟨ps, hg, made⟩ := (mergeAll_mem run).mp hp
    obtain ⟨ps', hg', moved⟩ := alike.recurrences _ ps hg
    refine (mergeAll_mem run').mpr ⟨ps', hg', ?_⟩
    exact mergeParts_perm sums (filed.group hg) moved (filed.filled _ hg) made
  · obtain ⟨ps', hg', made⟩ := (mergeAll_mem run').mp hp
    obtain ⟨e, mem, made'⟩ := known _ ps' hg'
    cases made.symm.trans made'
    exact mem

private theorem collectLike_alike (sums : AnyOrder w add) {t t' : Terms}
    {like : List Expr × List (Loop × Expr)} (filed : t.Filed w)
    (distinct : (t'.recurrences.map Prod.fst).Nodup) (alike : t.Alike t') (back : t'.Alike t)
    (run : collectLike add mul w t = .ok like) :
    ∃ like', collectLike add mul w t' = .ok like' ∧ like.1.Perm like'.1 ∧ like.2.Perm like'.2 := by
  obtain ⟨c, head, scaled, merged, hc, hhead, hscaled, hmerged, rfl⟩ := collectLike_cases run
  obtain ⟨scaled', hscaled', moved⟩ := scaleTerms_perm alike.multiples hscaled
  obtain ⟨merged', hmerged', moved'⟩ := mergeAll_alike sums filed distinct alike back hmerged
  refine ⟨(head ++ scaled', merged'), ?_, moved.append_left head, moved'⟩
  simp only [collectLike, ← alike.constant, hc, hhead, hscaled', hmerged', ok_bind]
  rfl

private theorem proper_collectLike (sums : AnyOrder w add) (products : AnyOrder w mul) {t : Terms}
    {like : List Expr × List (Loop × Expr)} (pos : 0 < w) (filed : t.Filed w)
    (run : collectLike add mul w t = .ok like) :
    AllProper w like.1 ∧ AllProper w (like.2.map Prod.snd) ∧
      like.2.map Prod.fst = t.recurrences.map Prod.fst := by
  obtain ⟨c, head, scaled, merged, -, hhead, hscaled, hmerged, rfl⟩ := collectLike_cases run
  refine ⟨AllProper.append.mpr ⟨?_, proper_scaleTerms products pos filed.bases hscaled⟩,
    proper_mergeAll sums filed hmerged, mergeAll_keys hmerged⟩
  rcases constantTerm_cases hhead with ⟨-, rfl⟩ | ⟨-, k, hk, rfl⟩
  · exact AllProper.nil
  · simpa using proper_ofInt pos hk

/-- An operator over operands in another order is the same node. -/
theorem ordered_perm {op : Nary} (proper : AllProper w es) (perm : es.Perm fs) :
    ordered op es = ordered op fs :=
  ordered_congr perm proper.named proper.typed.texts

private theorem addInvariant_perm (sums : AnyOrder w add) {moved moved' : List Expr} (here : Proper w e)
    (proper : AllProper w moved) (perm : moved.Perm moved') (run : addInvariant add l moved e = .ok r) :
    addInvariant add l moved' e = .ok r := by
  rcases addInvariant_cases run with
    ⟨a, b, m, start, rfl, hstart, rfl⟩ | ⟨still, ⟨rfl, rfl⟩ | ⟨some, added⟩⟩
  · have operands := AllProper.cons.mpr ⟨here.recurrence.1, proper⟩
    simp only [addInvariant, sums.perm (by simp) operands (perm.cons a) hstart, ok_bind]
    rfl
  · rwa [← perm.nil_eq]
  · have some' : moved'.isEmpty = false := by
      rw [← perm.isEmpty_eq, List.isEmpty_eq_false_iff.mpr some]
    rw [(addInvariant_still add (fun _ => 0) still).1, some']
    exact sums.perm (by simp) (AllProper.cons.mpr ⟨here, proper⟩) (perm.cons e) added

private theorem proper_addInvariant (sums : AnyOrder w add) {moved : List Expr} (here : Proper w e)
    (proper : AllProper w moved) (loop : Text.isName l.name.name = true)
    (run : addInvariant add l moved e = .ok r) : Proper w r := by
  rcases addInvariant_cases run with
    ⟨a, b, m, start, rfl, hstart, rfl⟩ | ⟨-, ⟨-, rfl⟩ | ⟨-, added⟩⟩
  · have operands := AllProper.cons.mpr ⟨here.recurrence.1, proper⟩
    exact proper_recur (sums.proper (by simp) operands hstart) here.recurrence.2.1 loop
  · exact here
  · exact sums.proper (by simp) (AllProper.cons.mpr ⟨here, proper⟩) added

private theorem foldInto_perm (sums : AnyOrder w add) (here : Proper w e) (proper : AllProper w rest)
    (loop : Text.isName l.name.name = true) (perm : rest.Perm rest')
    (run : foldInto add l e rest = .ok r) : foldInto add l e rest' = .ok r := by
  obtain ⟨f, hf, run⟩ := bind_eq_ok.mp run
  have part (p : Expr → Bool) : AllProper w (rest.filter p) := fun o ho =>
    proper o (List.mem_of_mem_filter ho)
  have kept := perm.filter fun o => o.dependsOn l
  have f' := addInvariant_perm sums here (part _) (perm.filter fun o => !o.dependsOn l) hf
  have proper' := proper_addInvariant sums here (part _) loop hf
  simp only [foldInto, f', ok_bind, ← kept.isEmpty_eq]
  rw [← ordered_perm (AllProper.cons.mpr ⟨proper', part _⟩) (kept.cons f)]
  exact run

private theorem joinLike_perm (sums : AnyOrder w add) {merged merged' : List (Loop × Expr)}
    (proper : AllProper w rest) (moving : AllProper w (merged.map Prod.snd))
    (distinct : (merged.map Prod.fst).Nodup)
    (loops : ∀ l ∈ merged.map Prod.fst, Text.isName l.name.name = true) (perm : rest.Perm rest')
    (perm' : merged.Perm merged') (run : joinLike add w rest merged = .ok r) :
    joinLike add w rest' merged' = .ok r := by
  match merged, merged' with
  | [], [] =>
    simp only [joinLike] at run ⊢
    rw [← perm.isEmpty_eq, ← ordered_perm proper perm]
    exact run
  | [], _ :: _ => cases perm'.nil_eq
  | _ :: _, [] => cases perm'.eq_nil
  | first :: more, first' :: more' =>
    have distinct' : ((first' :: more').map Prod.fst).Nodup := (perm'.map Prod.fst).nodup_iff.mp distinct
    obtain ⟨e, others, taken, mem, parted⟩ := takeInnermost_spec distinct
    obtain ⟨e', others', taken', mem', parted'⟩ := takeInnermost_spec distinct'
    have inner : innermost first.1 (more.map Prod.fst) = innermost first'.1 (more'.map Prod.fst) :=
      innermost_perm (perm'.map Prod.fst)
    have same : e = e' := by
      have found := perm'.mem_iff.mp mem
      rw [inner] at found
      exact List.inj_on_of_nodup_map distinct' found mem' rfl |> congrArg Prod.snd
    subst same
    have left : others.Perm others' :=
      List.Perm.cons_inv (parted.symm.trans ((perm'.map Prod.snd).trans parted'))
    obtain ⟨here, away⟩ := AllProper.cons.mp (moving.perm parted)
    simp only [joinLike, taken, taken', ← inner] at run ⊢
    refine foldInto_perm sums here (AllProper.append.mpr ⟨proper, away⟩) ?_ (perm.append left) run
    exact loops _ (innermost_mem _ _)

/-- One step of a sum makes the same node of the same operands in any order. -/
private theorem sumStep_perm (sums : AnyOrder w add) (products : AnyOrder w mul) (some : es ≠ [])
    (proper : AllProper w es) (perm : es.Perm fs) (run : sumStep add mul iw es = .ok r) :
    sumStep add mul iw fs = .ok r := by
  have typed := proper.typed
  have typed' := (proper.perm perm).typed
  have some' : fs ≠ [] := fun none => some (List.perm_nil.mp (none ▸ perm))
  have flat : AllBits (flatten .sum es) w := allBits_flatten typed
  have flat' : AllBits (flatten .sum fs) w := allBits_flatten typed'
  have fsome : flatten .sum es ≠ [] := flatten_ne_nil typed some
  have moved := flatten_perm .sum perm
  have fproper := proper_flatten .sum proper
  rcases sumStep_cases run with ⟨mem, -⟩ | ⟨v, t, like, hw, ht, hlike, run⟩
  · exact absurd rfl (typed _ mem).ne_uncomputable
  rw [commonWidth_eq iw flat fsome] at hw
  cases hw
  obtain ⟨t₁, ht₁, held⟩ := Terms.ofList_collects flat
  cases ht.symm.trans ht₁
  obtain ⟨t', ht', held'⟩ := Terms.ofList_collects flat'
  have totals := Terms.totals_ofList ht
  have totals' := Terms.totals_ofList ht'
  have filed := held.filed fproper
  have pos := typed.pos some
  obtain ⟨like', hlike', rests, mergeds⟩ := collectLike_alike sums filed held'.distinct
    (totals.alike totals' moved) (totals'.alike totals moved.symm) hlike
  obtain ⟨still, moving, keys⟩ := proper_collectLike sums products pos filed hlike
  have joined := joinLike_perm sums still moving (keys ▸ held.distinct)
    (fun l hl => filed.loop (keys ▸ hl)) rests mergeds run
  have width := commonWidth_eq iw flat' (flatten_ne_nil typed' some')
  simp only [sumStep, List.isEmpty_eq_false_iff.mpr some', typed'.no_uncomputable, width, ht', hlike',
    ok_bind, Bool.false_eq_true, if_false]
  exact joined

end sum

section product

/-- Only the constants count, and each is multiplied in and wrapped. -/
theorem constantFactor_eq (pos : 0 < w) (c : Int) (es : List Expr) : constantFactor w c es =
    .ok ((constantsOf es).foldl (fun c v => (c * v).bmod (Word.modulus w)) c) := by
  induction es generalizing c with
  | nil => rfl
  | cons e es ih =>
    cases e with
    | const v b => simp only [constantFactor, Word.signed_eq pos, ok_bind, constantsOf, List.foldl_cons, ih]
    | _ => exact ih c

theorem constantFactor_perm (pos : 0 < w) (perm : es.Perm fs) (c : Int) :
    constantFactor w c es = constantFactor w c fs := by
  have commutes : RightCommutative fun c v : Int => (c * v).bmod (Word.modulus w) :=
    ⟨fun c u v => by rw [Int.bmod_mul_bmod, Int.bmod_mul_bmod, mul_right_comm]⟩
  rw [constantFactor_eq pos, constantFactor_eq pos, (constantsOf_perm perm).foldl_eq c]

theorem scalable_eq_of_perm (perm : es.Perm fs) : scalable? es = scalable? fs := by
  cases scaled : scalable? fs with
  | none => exact scalable_perm perm scaled
  | some parts =>
    obtain ⟨a, b, l⟩ := parts
    obtain ⟨single, some, free⟩ := scalable_eq_some.mp scaled
    refine scalable_eq_some.mpr ⟨?_, ?_, fun f hf => free f ((perm.filter _).mem_iff.mp hf)⟩
    · exact List.perm_singleton.mp (single ▸ perm.filter _)
    · intro none
      exact some (List.perm_nil.mp (none ▸ (perm.filter _).symm))

private theorem joinFactors_perm (products : AnyOrder w mul) {head others others' : List Expr}
    (proper : AllProper w (head ++ others)) (perm : others.Perm others')
    (run : joinFactors add mul head others = .ok r) : joinFactors add mul head others' = .ok r := by
  have factors := perm.append_left head
  cases scaled : scalable? (head ++ others) with
  | some parts =>
    obtain ⟨a, b, l⟩ := parts
    have scaled' := (scalable_eq_of_perm factors).symm.trans scaled
    obtain ⟨start, step, hstart, hstep, rfl⟩ := joinFactors_scaled scaled run
    have parts := proper.perm (scalable_spec scaled).symm
    obtain ⟨scale, single⟩ := AllProper.append.mp parts
    have inner := (single _ (List.mem_singleton_self _)).recurrence
    have moved := factors.filter fun f => !f.isRecurrence
    have start' := products.perm (by simp) (AllProper.append.mpr ⟨scale, by simpa using inner.1⟩)
      (moved.append_right [a]) hstart
    have step' := products.perm (by simp) (AllProper.append.mpr ⟨scale, by simpa using inner.2.1⟩)
      (moved.append_right [b]) hstep
    simp only [joinFactors, scaled', start', step', ok_bind]
    rfl
  | none =>
    have scaled' := (scalable_eq_of_perm factors).symm.trans scaled
    rcases joinFactors_cases scaled run with ⟨k, es, terms, rfl, rfl, -, -⟩ | ⟨other, sorted⟩
    · rw [List.perm_singleton.mp perm.symm]
      exact run
    · have other' : ∀ k es, head = [k] → others' = [sum es] → False := by
        intro k es hk hes
        exact other k es hk (List.perm_singleton.mp (hes ▸ perm))
      rw [joinFactors_ordered scaled' other', ← ordered_perm proper factors]
      exact sorted

/-- A step of a product in terms of its constant factor and of the other factors. -/
theorem productStep_eq (add mul : Build) (iw : Int) (some : es ≠ []) (typed : AllBits es w) :
    ∃ c head, constantFactor w 1 (flatten .product es) = .ok c ∧ constantHead w c = .ok head ∧
      Same .product w 0 es (head ++ (flatten .product es).filter fun o => !o.isConst) ∧
      productStep add mul iw es = if c = 0 then zero w else
        if ((flatten .product es).filter fun o => !o.isConst).isEmpty then ofInt c w else
          joinFactors add mul head ((flatten .product es).filter fun o => !o.isConst) := by
  have opened : Same .product w 0 es (flatten .product es) := Same.flatten (.inr rfl) typed
  have width := commonWidth_eq iw opened.typed (flatten_ne_nil typed some)
  obtain ⟨c, head, hc, hhead, -, -, same⟩ := same_factors (typed.pos some) opened.typed
  refine ⟨c, head, hc, hhead, (opened.trans same).congr_gap fun ρ => by simp, ?_⟩
  simp only [productStep, List.isEmpty_eq_false_iff.mpr some, typed.no_uncomputable, width, hc, hhead,
    ok_bind, Bool.false_eq_true, if_false]

/-- A step of a product gives a constant, or what the other factors are joined to. -/
theorem productStep_run (some : es ≠ []) (typed : AllBits es w)
    (run : productStep add mul iw es = .ok r) : ∃ c, constantFactor w 1 (flatten .product es) = .ok c ∧
      ((c = 0 ∨ plainFactors es = []) ∧ r = const (c.bmod (Word.modulus w)) w ∨
        c ≠ 0 ∧ plainFactors es ≠ [] ∧ ∃ head, constantHead w c = .ok head ∧
          joinFactors add mul head (plainFactors es) = .ok r) := by
  have pos := typed.pos some
  obtain ⟨c, head, hc, hhead, -, step⟩ := productStep_eq add mul iw some typed
  rw [step] at run
  refine ⟨c, hc, ?_⟩
  split at run
  · next nought =>
    rw [zero_eq pos] at run
    cases run
    exact .inl ⟨.inl nought, by simp [nought]⟩
  next nonzero =>
  split at run
  · next none =>
    rw [ofInt_eq pos] at run
    cases run
    exact .inl ⟨.inr (List.isEmpty_iff.mp none), rfl⟩
  · next filled => exact .inr ⟨nonzero, fun none => filled (List.isEmpty_iff.mpr none), head, hhead, run⟩

/-- One step of a product depends on the constant among the factors, and on which other factors there
are. -/
theorem productStep_congr (products : AnyOrder w mul) (some : es ≠ []) (some' : fs ≠ [])
    (proper : AllProper w es) (proper' : AllProper w fs)
    (constant : constantFactor w 1 (flatten .product es) = constantFactor w 1 (flatten .product fs))
    (factors : (plainFactors es).Perm (plainFactors fs)) (run : productStep add mul iw es = .ok r) :
    productStep add mul iw fs = .ok r := by
  obtain ⟨c, head, hc, hhead, same, step⟩ := productStep_eq add mul iw some proper.typed
  obtain ⟨c', head', hc', hhead', -, step'⟩ := productStep_eq add mul iw some' proper'.typed
  unfold plainFactors at factors
  rw [constant, hc'] at hc
  cases hc
  cases hhead.symm.trans hhead'
  rw [step] at run
  rw [step', ← factors.isEmpty_eq]
  split at run
  · next nought =>
    rw [if_pos nought]
    exact run
  next nonzero =>
  rw [if_neg nonzero]
  split at run
  · next none =>
    rw [if_pos none]
    exact run
  · next filled =>
    rw [if_neg filled]
    exact joinFactors_perm products (same.proper proper) factors run

/-- One step of a product makes the same node of the same operands in any order. -/
private theorem productStep_perm (products : AnyOrder w mul) (some : es ≠ []) (proper : AllProper w es)
    (perm : es.Perm fs) (run : productStep add mul iw es = .ok r) :
    productStep add mul iw fs = .ok r := by
  have some' : fs ≠ [] := fun none => some (List.perm_nil.mp (none ▸ perm))
  have moved := flatten_perm .product perm
  have constant := constantFactor_perm (proper.typed.pos some) moved 1
  exact productStep_congr products some some' proper (proper.perm perm) constant (moved.filter _) run

end product

section recursion

/-- However many nested steps there may be, the order of the operands does not matter. -/
theorem within_anyOrder (w iw : Int) (n : Nat) :
    AnyOrder w (sumWithin iw n) ∧ AnyOrder w (productWithin iw n) := by
  have properSum (n : Nat) {es : List Expr} {r : Expr} (some : es ≠ []) (proper : AllProper w es)
      (run : sumWithin iw n es = .ok r) : Proper w r :=
    (same_of_sumWithin some proper.typed run).proper proper r (List.mem_singleton_self r)
  have properProduct (n : Nat) {es : List Expr} {r : Expr} (some : es ≠ []) (proper : AllProper w es)
      (run : productWithin iw n es = .ok r) : Proper w r :=
    (same_of_productWithin some proper.typed run).proper proper r (List.mem_singleton_self r)
  induction n with
  | zero =>
    exact ⟨⟨properSum 0, fun _ _ _ run => (nomatch run)⟩,
      ⟨properProduct 0, fun _ _ _ run => (nomatch run)⟩⟩
  | succ n ih =>
    obtain ⟨sums, products⟩ := ih
    exact ⟨⟨properSum (n + 1), sumStep_perm sums products⟩,
      ⟨properProduct (n + 1), productStep_perm products⟩⟩

/-- The sum of proper operands, found in any order of them. -/
theorem sumOf_perm (iw : Int) (some : es ≠ []) (proper : AllProper w es) (perm : es.Perm fs) :
    ∃ r, sumOf iw es = .ok r ∧ sumOf iw fs = .ok r ∧ Proper w r := by
  obtain ⟨r, run, same⟩ := sumOf_spec iw some proper.typed
  have fuel : fuelFor .sum fs = fuelFor .sum es := by
    simp only [fuelFor, weight, padding, weightSum_perm perm, perm.length_eq]
  refine ⟨r, run, ?_, same.proper proper r (by simp)⟩
  rw [sumOf, fuel]
  exact (within_anyOrder w iw _).1.perm some proper perm run

theorem productOf_perm (iw : Int) (some : es ≠ []) (proper : AllProper w es) (perm : es.Perm fs) :
    ∃ r, productOf iw es = .ok r ∧ productOf iw fs = .ok r ∧ Proper w r := by
  obtain ⟨r, run, same⟩ := productOf_spec iw some proper.typed
  have fuel : fuelFor .product fs = fuelFor .product es := by
    simp only [fuelFor, weight, padding, weightProduct_perm perm, perm.length_eq]
  refine ⟨r, run, ?_, same.proper proper r (by simp)⟩
  rw [productOf, fuel]
  exact (within_anyOrder w iw _).2.perm some proper perm run

/-- Operands with one constant factor and the same other factors have one product. -/
theorem productOf_congr (iw : Int) (some : es ≠ []) (some' : fs ≠ []) (proper : AllProper w es)
    (proper' : AllProper w fs)
    (constant : constantFactor w 1 (flatten .product es) = constantFactor w 1 (flatten .product fs))
    (factors : (plainFactors es).Perm (plainFactors fs)) : productOf iw es = productOf iw fs := by
  obtain ⟨r, run, -⟩ := productOf_spec iw some proper.typed
  have deep : productWithin iw (fuelFor .product es) fs = .ok r :=
    productStep_congr (within_anyOrder w iw _).2 some some' proper proper' constant factors run
  rw [run, productOf_of_within some' proper'.typed deep]

end recursion

section maximum

theorem distinctOthers_nodup {es seen : List Expr} (distinct : seen.Nodup) :
    (distinctOthers es seen).Nodup := by
  induction es generalizing seen with
  | nil => exact distinct
  | cons e es ih =>
    unfold distinctOthers
    split
    · exact ih distinct
    · next keep =>
      simp only [Bool.or_eq_true, not_or, List.contains_eq_mem, decide_eq_true_eq] at keep
      exact ih (distinct.append (List.nodup_singleton e) (by simpa using keep.2))

/-- The constant that stands for all constants of a maximum. -/
def topConstant (signed : Bool) (w : Int) (es : List Expr) : List Expr :=
  match (constantsOf es).map (readAs signed w) with
  | [] => []
  | v :: vs => [const ((greatest v vs).bmod (Word.modulus w)) w]

/-- What a maximum of opened operands keeps, to be sorted. -/
def keptOperands (signed : Bool) (w : Int) (es : List Expr) : List Expr :=
  distinctOthers es [] ++ topConstant signed w es

theorem maximum_eq {signed : Bool} {op : Nary} (iw : Int)
    (kind : (if signed then Nary.signedMax else .unsignedMax) = op) (some : es ≠ [])
    (typed : AllBits es w) :
    maximum signed iw es = ordered op (keptOperands signed w (flatten op es)) := by
  have pos := typed.pos some
  have flat : AllBits (flatten op es) w := allBits_flatten typed
  have width := commonWidth_eq iw flat (flatten_ne_nil typed some)
  simp only [maximum, typed.no_uncomputable, Bool.false_eq_true, if_false, kind, width,
    readConstants_eq signed pos flat, ok_bind, keptOperands, topConstant]
  cases (constantsOf (flatten op es)).map (readAs signed w) with
  | nil => simp
  | cons v vs => simp only [ofInt_eq pos, ok_bind]

theorem topConstant_cases (signed : Bool) (w : Int) (es : List Expr) :
    topConstant signed w es = [] ∨
      ∃ v : Int, topConstant signed w es = [const (v.bmod (Word.modulus w)) w] := by
  unfold topConstant
  split
  · exact .inl rfl
  · exact .inr ⟨_, rfl⟩

/-- What holds of the operands and of constants holds of what is kept. -/
theorem keptOperands_all {P : Expr → Prop} (signed : Bool) (w : Int) (others : ∀ e ∈ es, P e)
    (constants : ∀ v : Int, P (const (v.bmod (Word.modulus w)) w)) : ∀ e ∈ keptOperands signed w es, P e := by
  refine List.forall_mem_append.mpr ⟨fun e he => ?_, ?_⟩
  · exact others e (by simpa using (mem_distinctOthers.mp he).imp_right And.left)
  · rcases topConstant_cases signed w es with none | ⟨v, single⟩
    · simp [none]
    · simpa [single] using constants v

theorem proper_keptOperands (signed : Bool) (pos : 0 < w) (proper : AllProper w es) :
    AllProper w (keptOperands signed w es) :=
  keptOperands_all signed w proper fun v => ⟨hasBits_const_bmod pos v, named_const⟩

/-- Operands of which a maximum keeps the same: the others are those of both, and the constants of both
reach the same level. -/
structure SameMaximum (signed : Bool) (w : Int) (es fs : List Expr) : Prop where
  others : ∀ e, e.isConst = false → (e ∈ es ↔ e ∈ fs)
  constants : Level ((constantsOf es).map (readAs signed w)) ((constantsOf fs).map (readAs signed w))

private theorem SameMaximum.topConstant_eq {signed : Bool} (same : SameMaximum signed w es fs) :
    topConstant signed w es = topConstant signed w fs := by
  have level := same.constants
  unfold topConstant
  generalize (constantsOf es).map (readAs signed w) = us at level
  generalize (constantsOf fs).map (readAs signed w) = vs at level
  rcases us with _ | ⟨u, us⟩ <;> rcases vs with _ | ⟨v, vs⟩
  · rfl
  · obtain ⟨u, hu, -⟩ := (level v).mpr ⟨v, by simp, le_rfl⟩
    cases hu
  · obtain ⟨v, hv, -⟩ := (level u).mp ⟨u, by simp, le_rfl⟩
    cases hv
  · have top : greatest u us = greatest v vs := level.greatestOf_eq (List.cons_ne_nil u us)
    simp only [top]

theorem SameMaximum.keptOperands_perm {signed : Bool} (same : SameMaximum signed w es fs) :
    (keptOperands signed w es).Perm (keptOperands signed w fs) := by
  rw [keptOperands, keptOperands, same.topConstant_eq]
  refine List.Perm.append_right _ ?_
  refine (List.perm_ext_iff_of_nodup (distinctOthers_nodup .nil) (distinctOthers_nodup .nil)).mpr fun e => ?_
  rw [mem_distinctOthers, mem_distinctOthers]
  exact or_congr Iff.rfl (and_congr_left (same.others e))

/-- Operands of which the same is kept make one maximum. -/
theorem maximum_congr {signed : Bool} {op : Nary} (iw : Int)
    (kind : (if signed then Nary.signedMax else .unsignedMax) = op) (some : es ≠ []) (some' : fs ≠ [])
    (proper : AllProper w es) (proper' : AllProper w fs)
    (same : SameMaximum signed w (flatten op es) (flatten op fs)) :
    maximum signed iw es = maximum signed iw fs := by
  rw [maximum_eq iw kind some proper.typed, maximum_eq iw kind some' proper'.typed]
  have pos := proper.typed.pos some
  exact ordered_perm (proper_keptOperands signed pos (proper_flatten op proper)) same.keptOperands_perm

/-- A maximum of the same operands in another order is the same node. -/
theorem maximum_perm (signed : Bool) (iw : Int) (some : es ≠ []) (proper : AllProper w es)
    (perm : es.Perm fs) : maximum signed iw es = maximum signed iw fs := by
  have some' : fs ≠ [] := fun none => some (List.perm_nil.mp (none ▸ perm))
  refine maximum_congr iw rfl some some' proper (proper.perm perm) ⟨fun e _ => ?_, ?_⟩
  · exact (flatten_perm _ perm).mem_iff
  · exact .of_mem_iff fun n => ((constantsOf_perm (flatten_perm _ perm)).map _).mem_iff

end maximum

/-- Sums, products and maxima of operands of one width do not depend on the order of the operands; only
products may have none. -/
theorem operands_in_any_order (iw : Int) (index : 0 < iw) (typed : AllBits es w)
    (named : ∀ e ∈ es, e.Named) (perm : es.Perm fs) :
    (∃ r, productOf iw es = .ok r ∧ productOf iw fs = .ok r) ∧
      (es ≠ [] → (∃ r, sumOf iw es = .ok r ∧ sumOf iw fs = .ok r) ∧
        ∀ signed, ∃ r, maximum signed iw es = .ok r ∧ maximum signed iw fs = .ok r) := by
  have proper : AllProper w es := fun e he => ⟨typed e he, named e he⟩
  refine ⟨?_, fun some => ⟨?_, fun signed => ?_⟩⟩
  · by_cases some : es = []
    · subst some
      obtain rfl := List.nil_perm.mp perm
      exact ⟨_, one_eq index, one_eq index⟩
    · obtain ⟨r, run, run', -⟩ := productOf_perm iw some proper perm
      exact ⟨r, run, run'⟩
  · obtain ⟨r, run, run', -⟩ := sumOf_perm iw some proper perm
    exact ⟨r, run, run'⟩
  · obtain ⟨r, run, -⟩ := (maximum_yields signed default iw typed.operands some).typed
    exact ⟨r, run, maximum_perm signed iw some proper perm ▸ run⟩

theorem operands_in_any_order_cancelling : (0 : Int) < 64 ∧ AllBits cancelling 64 ∧
    (∀ e ∈ cancelling, e.Named) ∧ cancelling.Perm cancelling.reverse ∧ cancelling ≠ [] ∧
      (∃ r, productOf 64 cancelling = .ok r ∧ productOf 64 cancelling.reverse = .ok r) ∧
      (∃ r, sumOf 64 cancelling = .ok r ∧ sumOf 64 cancelling.reverse = .ok r) ∧
        ∀ signed, ∃ r, maximum signed 64 cancelling = .ok r ∧
          maximum signed 64 cancelling.reverse = .ok r := by
  have named : ∀ e ∈ cancelling, e.Named := by decide +kernel
  have moved : cancelling.Perm cancelling.reverse := (List.reverse_perm _).symm
  have some : cancelling ≠ [] := by decide
  obtain ⟨products, rest⟩ := operands_in_any_order 64 (by decide) cancelling_typed named moved
  exact ⟨by decide, cancelling_typed, named, moved, some, products, rest some⟩

end ShapeRecovery.Expr
