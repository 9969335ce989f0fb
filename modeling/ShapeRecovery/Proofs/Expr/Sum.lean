import ShapeRecovery.Proofs.Expr.Confusion
import ShapeRecovery.Proofs.Expr.Terms

namespace ShapeRecovery.Expr

/-- `add` gives sums of operands of `w` bits that weigh less than `n` together. -/
def AddsBelow (add : Build) (addGap : Account) (w : Int) (n : Nat) : Prop :=
  ∀ es, es ≠ [] → AllBits es w → weightSum es < n →
    ∃ r, add es = .ok r ∧ Same .sum w (addGap es) es [r]

/-- `mul` gives products of operands of `w` bits that weigh less than `n` when multiplied out. -/
def MultipliesBelow (mul : Build) (mulGap : Account) (w : Int) (n : Nat) : Prop :=
  ∀ es, es ≠ [] → AllBits es w → weightProduct es < n →
    ∃ r, mul es = .ok r ∧ Same .product w (mulGap es) es [r]

variable {add mul : Build} {addGap mulGap : Account} {w : Int} {n : Nat}

theorem hasBits_recur {a b : Expr} (l : Loop) (ha : HasBits a w) (hb : HasBits b w) :
    HasBits (recur a b l) w := by
  rw [recur_of_computable l ha.ne_uncomputable hb.ne_uncomputable]
  split
  · exact ha
  · exact .recurrence ha hb

theorem value_recur {a b : Expr} (l : Loop) (ha : HasBits a w) (hb : HasBits b w) (ρ : Valuation) :
    value w ρ (recur a b l) = value w ρ a + value w ρ b * (ρ.count l : ZMod (Word.modulus w)) := by
  rw [recur_of_computable l ha.ne_uncomputable hb.ne_uncomputable]
  split
  · next still => simp [value_of_isZero w ρ still]
  · simp

theorem builtOver_recur {A : Expr → Prop} {L : Loop → Prop} {a b : Expr} {l : Loop}
    (ha : HasBits a w) (hb : HasBits b w) (known : L l) (within : BuiltOver A L a)
    (within' : BuiltOver A L b) : BuiltOver A L (recur a b l) := by
  rw [recur_of_computable l ha.ne_uncomputable hb.ne_uncomputable]
  split
  · exact within
  · exact .recurrence known within within'

open Terms (multiple constantTerms)

/-- The constant term of a sum has the value of the total. -/
private theorem constantTerm_spec (pos : 0 < w) (v : Int) :
    ∃ es, constantTerm w (v.bmod (Word.modulus w)) = .ok es ∧
      Same .sum w 0 (constantTerms w v) es := by
  by_cases h : v.bmod (Word.modulus w) = 0
  · refine ⟨[], by simp [constantTerm, h], AllBits.nil, by simp [weightOf, weightSum], by simp,
      fun ρ => ?_, fun _ _ _ _ => rfl⟩
    rw [value_sum, value_sum, Terms.sum_constantTerms, ← Word.cast_bmod v, h]
    simp
  · have nonzero : v ≠ 0 := by
      rintro rfl
      simp at h
    refine ⟨[const (v.bmod (Word.modulus w)) w], ?_, ?_, ?_, ?_, fun ρ => ?_, fun _ _ _ _ => rfl⟩
    · simp [constantTerm, h, ofInt_eq pos]
    · simpa using hasBits_const_bmod pos v
    · simp [weightOf, weightSum, weight, Terms.weightSum_constantTerms, nonzero]
    · intro A L _ e he
      rw [List.mem_singleton.mp he]
      exact .const _ _
    · rw [value_sum, value_sum, Terms.sum_constantTerms]
      simp

private theorem scaleTerm_spec (pos : 0 < w) {b : Expr} (c : Int) (typed : HasBits b w)
    (light : weight b < n) (hmul : MultipliesBelow mul mulGap w n) :
    ∃ es, scaleTerm mul w b c = .ok es ∧
      Same .sum w (scaleTermGap mulGap w b c) [multiple w (b, c)] es := by
  simp only [scaleTerm, scaleTermGap, Word.signed_eq pos, ok_bind]
  have residue : (c : ZMod (Word.modulus w)) = (c.bmod (Word.modulus w) : Int) := by simp
  by_cases one : c.bmod (Word.modulus w) = 1
  · refine ⟨[b], by simp [one], by simpa using typed, by simp [weightOf, weightSum], ?_, ?_, ?_⟩
    · intro A L within e he
      rw [List.mem_singleton.mp he]
      exact Terms.builtOver_multiple.mp (within _ (List.mem_singleton_self _))
    · intro ρ
      simp [one, residue]
    · simp [one]
  by_cases nought : c.bmod (Word.modulus w) = 0
  · exact ⟨[], by simp [nought], AllBits.nil, by simp [weightOf, weightSum], by simp,
      fun ρ => by simp [nought, residue], by simp [nought]⟩
  obtain ⟨r, hr, same⟩ := hmul [const (c.bmod (Word.modulus w)) w, b] (by simp)
    (by simpa using ⟨hasBits_const_bmod pos c, typed⟩)
    (by simpa [weightProduct, weight] using light)
  have built : ∀ A L, (∀ e ∈ [multiple w (b, c)], BuiltOver A L e) →
      ∀ e ∈ [const (c.bmod (Word.modulus w)) w, b], BuiltOver A L e := by
    intro A L within e he
    rcases List.mem_cons.mp he with rfl | he
    · exact .const _ _
    · rw [List.mem_singleton.mp he]
      exact Terms.builtOver_multiple.mp (within _ (List.mem_singleton_self _))
  refine ⟨[r], ?_, same.typed, ?_, fun A L within => same.built A L (built A L within), fun ρ => ?_, ?_⟩
  · simp only [if_neg one, if_neg nought, ofInt_eq pos, Int.bmod_bmod, ok_bind, hr]
    rfl
  · simpa [weightOf, weightSum, weightProduct, weight] using same.weight_single_product
  · simp [one, nought, same.value_single_product ρ]
  · intro L ρ within step
    simpa [one, nought] using same.noGap L ρ (built _ L within) step

private theorem scaleTerms_spec (pos : 0 < w) {ms : List (Expr × Int)}
    (bases : ∀ p ∈ ms, HasBits p.1 w ∧ weight p.1 < n) (hmul : MultipliesBelow mul mulGap w n) :
    ∃ es, scaleTerms mul w ms = .ok es ∧
      Same .sum w (scaleTermsGap mulGap w ms) (ms.map (multiple w)) es := by
  induction ms with
  | nil => exact ⟨[], rfl, Same.refl AllBits.nil⟩
  | cons p ms ih =>
    obtain ⟨b, c⟩ := p
    obtain ⟨typed, light⟩ := bases (b, c) (by simp)
    obtain ⟨fs, hf, here⟩ := scaleTerm_spec pos c typed light hmul
    obtain ⟨es, he, rest⟩ := ih fun q hq => bases q (by simp [hq])
    exact ⟨fs ++ es, by simp only [scaleTerms, hf, he, ok_bind]; rfl, here.append rest⟩

private theorem AllBits.groupTerms_iff {l : Loop} {parts : List (Expr × Expr)} :
    AllBits (groupTerms (l, parts)) w ↔
      AllBits (parts.map Prod.fst) w ∧ AllBits (parts.map Prod.snd) w := by
  simp only [AllBits, groupTerms, List.forall_mem_map, HasBits.recurrence_iff, forall_and]

theorem weightSum_groupTerms (l : Loop) (parts : List (Expr × Expr)) :
    weightSum (groupTerms (l, parts)) =
      parts.length + weightSum (parts.map Prod.fst) + weightSum (parts.map Prod.snd) := by
  induction parts with
  | nil => rfl
  | cons p parts ih =>
    simp only [groupTerms, List.map_cons, weightSum, weight, List.length_cons] at ih ⊢
    omega

private theorem sum_groupTerms (l : Loop) (parts : List (Expr × Expr)) (ρ : Valuation) :
    ((groupTerms (l, parts)).map (value w ρ)).sum =
      ((parts.map Prod.fst).map (value w ρ)).sum +
        ((parts.map Prod.snd).map (value w ρ)).sum * (ρ.count l : ZMod (Word.modulus w)) := by
  induction parts with
  | nil => simp [groupTerms]
  | cons p parts ih =>
    simp only [groupTerms, List.map_cons, List.sum_cons, value_recurrence] at ih ⊢
    rw [ih]
    ring

/-- A recurrence made of the sums of the starts and of the steps stands for all the recurrences. -/
private theorem same_recur {l : Loop} {parts : List (Expr × Expr)} {g h : Gap} {a b : Expr}
    (some : parts ≠ []) (starts : Same .sum w g (parts.map Prod.fst) [a])
    (steps : Same .sum w h (parts.map Prod.snd) [b]) :
    Same .sum w (g + h * iterations l) (groupTerms (l, parts)) [recur a b l] where
  typed := by simpa using hasBits_recur l starts.hasBits steps.hasBits
  weight_le := by
    have length := List.length_pos_of_ne_nil some
    have low := weight_recur_le a b l
    have low₁ := starts.weight_single
    have low₂ := steps.weight_single
    simp only [weightOf, weightSum_groupTerms, weightSum]
    omega
  built A L within := by
    have parts' : ∀ p ∈ parts, L l ∧ BuiltOver A L p.1 ∧ BuiltOver A L p.2 := fun p hp =>
      BuiltOver.recurrence_iff.mp (within _ (List.mem_map_of_mem hp))
    obtain ⟨p, hp⟩ := List.exists_mem_of_ne_nil parts some
    have start := starts.built_single (List.forall_mem_map.mpr fun p hp => (parts' p hp).2.1)
    have step := steps.built_single (List.forall_mem_map.mpr fun p hp => (parts' p hp).2.2)
    simpa using builtOver_recur starts.hasBits steps.hasBits (parts' p hp).1 start step
  total ρ := by
    simp only [value_sum, sum_groupTerms, List.map_cons, List.map_nil, List.sum_cons, List.sum_nil,
      value_recur l starts.hasBits steps.hasBits, starts.value_single ρ, steps.value_single ρ,
      Pi.add_apply, Pi.mul_apply, iterations_apply]
    push_cast
    ring
  noGap L ρ within step := by
    have parts' : ∀ p ∈ parts, L l ∧ BuiltOver _ L p.1 ∧ BuiltOver _ L p.2 := fun p hp =>
      BuiltOver.recurrence_iff.mp (within _ (List.mem_map_of_mem hp))
    have h₁ := starts.noGap L ρ (List.forall_mem_map.mpr fun p hp => (parts' p hp).2.1) step
    have h₂ := steps.noGap L ρ (List.forall_mem_map.mpr fun p hp => (parts' p hp).2.2) step
    simp [h₁, h₂]

/-- The recurrences of one loop merge into a recurrence, or into something lighter. -/
private theorem mergeParts_spec {l : Loop} {parts : List (Expr × Expr)} (some : parts ≠ [])
    (typed : AllBits (groupTerms (l, parts)) w) (light : weightSum (groupTerms (l, parts)) ≤ n)
    (hadd : AddsBelow add addGap w n) :
    ∃ e, mergeParts add l parts = .ok e ∧
      Same .sum w (mergePartsGap addGap l parts) (groupTerms (l, parts)) [e] ∧
      (e.isRecurrence = true ∨ weight e < weightSum (groupTerms (l, parts))) := by
  obtain ⟨starts, steps⟩ := AllBits.groupTerms_iff.mp typed
  have length := List.length_pos_of_ne_nil some
  have weights := weightSum_groupTerms l parts
  match parts, some with
  | [(a, b)], _ => exact ⟨recurrence a b l, rfl, Same.refl typed, .inl rfl⟩
  | p :: q :: parts, some =>
    obtain ⟨a, ha, hstart⟩ := hadd ((p :: q :: parts).map Prod.fst) (by simp) starts (by omega)
    obtain ⟨b, hb, hstep⟩ := hadd ((p :: q :: parts).map Prod.snd) (by simp) steps (by omega)
    refine ⟨recur a b l, ?_, same_recur some hstart hstep, ?_⟩
    · simp only [mergeParts, ha, hb, ok_bind]
      rfl
    · have low := hstart.weight_single
      rw [recur_of_computable l hstart.hasBits.ne_uncomputable hstep.hasBits.ne_uncomputable]
      split
      · exact .inr (by omega)
      · exact .inl rfl

private theorem mergeAll_spec {gs : List (Loop × List (Expr × Expr))} (filled : ∀ g ∈ gs, g.2 ≠ [])
    (typed : AllBits (gs.flatMap groupTerms) w) (light : weightSum (gs.flatMap groupTerms) ≤ n)
    (hadd : AddsBelow add addGap w n) :
    ∃ merged, mergeAll add gs = .ok merged ∧ merged.map Prod.fst = gs.map Prod.fst ∧
      Same .sum w (mergeAllGap addGap gs) (gs.flatMap groupTerms) (merged.map Prod.snd) ∧
      ∀ p ∈ merged, p.2.isRecurrence = true ∨
        weightSum (merged.map Prod.snd) < weightSum (gs.flatMap groupTerms) := by
  induction gs with
  | nil => exact ⟨[], rfl, rfl, Same.refl AllBits.nil, by simp⟩
  | cons g gs ih =>
    obtain ⟨l, parts⟩ := g
    simp only [List.flatMap_cons, AllBits.append, weightSum_append] at typed light
    have some : parts ≠ [] := filled (l, parts) (by simp)
    obtain ⟨e, he, same, strict⟩ := mergeParts_spec some typed.1 (by omega) hadd
    obtain ⟨merged, hm, keys, rest, strict'⟩ :=
      ih (fun g hg => filled g (by simp [hg])) typed.2 (by omega)
    refine ⟨(l, e) :: merged, by simp only [mergeAll, he, hm, ok_bind]; rfl, by simp [keys],
      same.append rest, ?_⟩
    have low := same.weight_single
    have low' : weightSum (merged.map Prod.snd) ≤ weightSum (gs.flatMap groupTerms) :=
      rest.weight_le
    intro p hp
    simp only [List.map_cons, weightSum, List.flatMap_cons, weightSum_append]
    rcases List.mem_cons.mp hp with rfl | hp
    · exact strict.imp_right fun h => by omega
    · exact (strict' p hp).imp_right fun h => by omega

/-- Every set of loops that the operands `es` are built over has the loop `l`. -/
def Mentions (es : List Expr) (l : Loop) : Prop :=
  ∀ (A : Expr → Prop) (L : Loop → Prop), (∀ e ∈ es, BuiltOver A L e) → L l

section fold

variable {es rest moved kept : List Expr} {e : Expr} {l : Loop} {g : Gap}

theorem addInvariant_still (add : Build) (addGap : Account) (still : e.isRecurrence = false) :
    addInvariant add l moved e = (if moved.isEmpty then .ok e else add (e :: moved)) ∧
      addInvariantGap addGap l moved e = if moved.isEmpty then 0 else addGap (e :: moved) := by
  cases e with
  | recurrence => simp [isRecurrence] at still
  | _ => exact ⟨rfl, rfl⟩

/-- Terms that do not change with a loop join the start of its recurrence. -/
private theorem addInvariant_moving {start step : Expr} {own : Loop}
    (before : Same .sum w g es (recurrence start step own :: moved ++ kept)) (known : Mentions es l)
    (hadd : AddsBelow add addGap w (weightSum es)) :
    ∃ r, addInvariant add l moved (recurrence start step own) = .ok r ∧
      Same .sum w (g + addInvariantGap addGap l moved (recurrence start step own)) es (r :: kept) := by
  have le : weightSum (recurrence start step own :: moved ++ kept) ≤ weightSum es := before.weight_le
  simp only [weightSum_append, weightSum, weight] at le
  obtain ⟨together, hkept⟩ := AllBits.append.mp before.typed
  obtain ⟨he, hmoved⟩ := AllBits.cons.mp together
  obtain ⟨hstart, hstep⟩ := HasBits.recurrence_iff.mp he
  obtain ⟨a, ha, same⟩ := hadd (start :: moved) (by simp) (by simp [hstart, hmoved])
    (by simp only [weightSum]; omega)
  have low := same.weight_single
  have low' := weight_recur_le a step l
  simp only [weightSum] at low
  have inside : ∀ A L, (∀ e ∈ es, BuiltOver A L e) →
      L own ∧ (∀ d ∈ start :: moved, BuiltOver A L d) ∧ BuiltOver A L step := by
    intro A L within
    have parts := before.built A L within
    have whole := BuiltOver.recurrence_iff.mp (parts (recurrence start step own) (by simp))
    refine ⟨whole.1, fun d hd => ?_, whole.2.2⟩
    rcases List.mem_cons.mp hd with rfl | hd
    · exact whole.2.1
    · exact parts d (by simp [hd])
  refine ⟨recur a step l, by simp only [addInvariant, ha, ok_bind]; rfl, ?_, ?_, ?_, ?_, ?_⟩
  · simpa using ⟨hasBits_recur l same.hasBits hstep, hkept⟩
  · simp only [weightOf, weightSum]
    omega
  · intro A L within f hf
    obtain ⟨-, starts, still⟩ := inside A L within
    rcases List.mem_cons.mp hf with rfl | hf
    · exact builtOver_recur same.hasBits hstep (known A L within) (same.built_single starts) still
    · exact before.built A L within f (by simp [hf])
  · intro ρ
    have total := before.total ρ
    simp only [value_sum, List.map_append, List.map_cons, List.sum_append, List.sum_cons,
      value_recurrence] at total
    simp only [value_sum, List.map_cons, List.sum_cons, value_recur l same.hasBits hstep,
      same.value_single ρ, addInvariantGap, Pi.add_apply, confusion_apply]
    push_cast
    rw [show ((step.meaning ρ : Int) : ZMod (Word.modulus w)) = value w ρ step from rfl]
    linear_combination total
  · intro L ρ within inStep
    obtain ⟨here, starts, -⟩ := inside _ L within
    have h₁ := before.noGap L ρ within inStep
    have h₂ := same.noGap L ρ starts inStep
    simp [addInvariantGap, h₁, h₂, inStep l own (known _ L within) here]

/-- Terms that do not change with a loop join its term. -/
private theorem addInvariant_spec (before : Same .sum w g es (e :: moved ++ kept)) (known : Mentions es l)
    (strict : e.isRecurrence = true ∨ weightSum (e :: moved ++ kept) < weightSum es)
    (hadd : AddsBelow add addGap w (weightSum es)) :
    ∃ r, addInvariant add l moved e = .ok r ∧
      Same .sum w (g + addInvariantGap addGap l moved e) es (r :: kept) := by
  cases moving : e.isRecurrence with
  | false =>
    obtain ⟨step, gap⟩ := @addInvariant_still moved e l add addGap moving
    rw [step, gap]
    have strict := strict.resolve_left (by simp [moving])
    simp only [weightSum_append, weightSum] at strict
    split
    · next none =>
      rw [List.isEmpty_iff.mp none] at before
      exact ⟨e, rfl, by simpa using before⟩
    · obtain ⟨together, hkept⟩ := AllBits.append.mp before.typed
      obtain ⟨r, hr, same⟩ := hadd (e :: moved) (by simp) together (by simp only [weightSum]; omega)
      refine ⟨r, hr, before.trans ((same.append (Same.refl hkept)).congr_gap fun ρ => ?_)⟩
      simp
  | true =>
    cases e with
    | recurrence start step own => exact addInvariant_moving before known hadd
    | _ => simp [isRecurrence] at moving

private theorem foldInto_spec (before : Same .sum w g es (e :: rest)) (known : Mentions es l)
    (strict : e.isRecurrence = true ∨ weightSum (e :: rest) < weightSum es)
    (hadd : AddsBelow add addGap w (weightSum es)) :
    ∃ r, foldInto add l e rest = .ok r ∧
      Same .sum w (g + addInvariantGap addGap l (rest.filter fun o => !o.dependsOn l) e) es [r] := by
  have split : (rest.filter (fun o => !o.dependsOn l) ++ rest.filter fun o => o.dependsOn l).Perm
      rest := by
    simpa using List.filter_append_perm (fun o => !o.dependsOn l) rest
  have parted := (before.trans (Same.of_perm (.inl rfl) (split.cons e) before.typed)).congr_gap
    (h := g) fun ρ => by simp
  rw [weightSum_perm (split.cons e).symm] at strict
  obtain ⟨r, hr, after⟩ := addInvariant_spec parted known strict hadd
  simp only [foldInto, hr, ok_bind]
  split
  · next none =>
    rw [List.isEmpty_iff.mp none] at after
    exact ⟨r, rfl, after⟩
  · obtain ⟨s, hs, arranged⟩ := ordered_arranged .sum after.typed.texts
    refine ⟨s, hs, (after.trans (Same.arranged (.inl rfl) arranged after.typed (by simp))).congr_gap
      fun ρ => ?_⟩
    simp

end fold

/-- Taking out the term of a key leaves the terms of the other keys. -/
private theorem perm_take {l : Loop} {terms : List (Loop × Expr)} (distinct : (terms.map Prod.fst).Nodup)
    (found : l ∈ terms.map Prod.fst) :
    ∃ e, terms.find? (fun p => p.1 = l) = some (l, e) ∧
      terms.Perm ((l, e) :: terms.filter fun p => p.1 ≠ l) := by
  induction terms with
  | nil => simp at found
  | cons p terms ih =>
    obtain ⟨m, d⟩ := p
    obtain ⟨fresh, distinct'⟩ := List.nodup_cons.mp distinct
    by_cases same : m = l
    · subst same
      have others : terms.filter (fun p => p.1 ≠ m) = terms := by
        refine List.filter_eq_self.mpr fun q hq => ?_
        have : q.1 ≠ m := fun h => fresh (List.mem_map.mpr ⟨q, hq, h⟩)
        simpa using this
      exact ⟨d, by simp, by rw [List.filter_cons_of_neg (by simp), others]⟩
    · have found' : l ∈ terms.map Prod.fst := by simpa [Ne.symm same] using found
      obtain ⟨e, he, perm⟩ := ih distinct' found'
      refine ⟨e, by simp [same, he], ?_⟩
      simpa [same] using (perm.cons (m, d)).trans (List.Perm.swap _ _ _)

theorem innermost_mem (l : Loop) (ms : List Loop) : innermost l ms ∈ l :: ms := by
  induction ms generalizing l with
  | nil => simp [innermost]
  | cons m ms ih =>
    have h := ih (if l.lt m then m else l)
    simp only [innermost]
    rcases List.mem_cons.mp h with h | h
    · rw [h]
      split <;> simp
    · simp [h]

theorem takeInnermost_spec {first : Loop × Expr} {more : List (Loop × Expr)}
    (distinct : ((first :: more).map Prod.fst).Nodup) :
    ∃ e others, takeInnermost first more = ((innermost first.1 (more.map Prod.fst), e), others) ∧
      (innermost first.1 (more.map Prod.fst), e) ∈ first :: more ∧
      ((first :: more).map Prod.snd).Perm (e :: others) := by
  have found : innermost first.1 (more.map Prod.fst) ∈ (first :: more).map Prod.fst :=
    innermost_mem first.1 _
  obtain ⟨e, he, perm⟩ := perm_take distinct found
  refine ⟨e, _, by rw [takeInnermost, he]; rfl, List.mem_of_find?_eq_some he, ?_⟩
  simpa using perm.map Prod.snd

theorem takeInnermost_mem (first : Loop × Expr) (more : List (Loop × Expr)) :
    (takeInnermost first more).1 ∈ first :: more := by
  have found : innermost first.1 (more.map Prod.fst) ∈ (first :: more).map Prod.fst :=
    innermost_mem first.1 _
  obtain ⟨p, hp, key⟩ := List.mem_map.mp found
  have chosen : ((first :: more).find? fun p => p.1 = innermost first.1 (more.map Prod.fst)).isSome :=
    List.find?_isSome.mpr ⟨p, hp, by simpa using key⟩
  obtain ⟨q, hq⟩ := Option.isSome_iff_exists.mp chosen
  have same := List.find?_some hq
  simp only [takeInnermost, hq, Option.getD_some]
  rw [← show q.1 = innermost first.1 (more.map Prod.fst) by simpa using same]
  exact List.mem_of_find?_eq_some hq

/-- The other terms are those of the other loops. -/
theorem takeInnermost_others {first : Loop × Expr} {more : List (Loop × Expr)} {o : Expr}
    (mem : o ∈ (takeInnermost first more).2) :
    ∃ p ∈ first :: more, p.1 ≠ (takeInnermost first more).1.1 ∧ p.2 = o := by
  obtain ⟨p, hp, same⟩ := List.mem_map.mp mem
  obtain ⟨inside, apart⟩ := List.mem_filter.mp hp
  exact ⟨p, inside, by simpa [takeInnermost] using apart, same⟩

/-- What is taken apart are terms that were there. -/
theorem takeInnermost_subset (first : Loop × Expr) (more : List (Loop × Expr)) :
    (takeInnermost first more).1.2 :: (takeInnermost first more).2 ⊆ (first :: more).map Prod.snd := by
  refine List.cons_subset.mpr ⟨List.mem_map_of_mem (takeInnermost_mem first more), fun o ho => ?_⟩
  obtain ⟨p, hp, -, rfl⟩ := takeInnermost_others ho
  exact List.mem_map_of_mem hp

private theorem joinLike_spec {es rest : List Expr} {merged : List (Loop × Expr)} {g : Gap}
    (some : es ≠ []) (pos : 0 < w) (before : Same .sum w g es (rest ++ merged.map Prod.snd))
    (distinct : (merged.map Prod.fst).Nodup) (known : ∀ p ∈ merged, Mentions es p.1)
    (strict : ∀ p ∈ merged, p.2.isRecurrence = true ∨
      weightSum (rest ++ merged.map Prod.snd) < weightSum es)
    (hadd : AddsBelow add addGap w (weightSum es)) :
    ∃ r, joinLike add w rest merged = .ok r ∧
      Same .sum w (g + joinLikeGap addGap rest merged) es [r] := by
  cases merged with
  | nil =>
    simp only [List.map_nil, List.append_nil] at before
    simp only [joinLike, joinLikeGap]
    split
    · next none =>
      rw [List.isEmpty_iff.mp none] at before
      have heavy := length_le_weightSum es
      have length := List.length_pos_of_ne_nil some
      refine ⟨const 0 w, zero_eq pos, by simpa using hasBits_zero pos, ?_, ?_, fun ρ => ?_, ?_⟩
      · simp only [weightOf, weightSum, weight]
        omega
      · intro A L _ e he
        rw [List.mem_singleton.mp he]
        exact .const _ _
      · simpa using before.total ρ
      · simpa using before.noGap
    · next filled =>
      have filled' : rest ≠ [] := fun h => filled (List.isEmpty_iff.mpr h)
      obtain ⟨r, hr, arranged⟩ := ordered_arranged .sum before.typed.texts
      exact ⟨r, hr, before.trans (Same.arranged (.inl rfl) arranged before.typed filled')⟩
  | cons first more =>
    obtain ⟨e, others, taken, mem, perm⟩ := takeInnermost_spec distinct
    have perm' : (e :: (rest ++ others)).Perm (rest ++ (first :: more).map Prod.snd) :=
      (List.perm_middle.symm.trans (perm.symm.append_left rest))
    have front := (before.trans (Same.of_perm (.inl rfl) perm' before.typed)).congr_gap
      (h := g) fun ρ => by simp
    have strict' := strict _ mem
    rw [weightSum_perm perm'.symm] at strict'
    obtain ⟨r, hr, after⟩ := foldInto_spec front (known _ mem) strict' hadd
    simp only [joinLike, joinLikeGap, taken]
    exact ⟨r, hr, after⟩

/-- Collecting like terms keeps the total, but for the gaps of the sums and products it makes. -/
private theorem collectLike_spec {es : List Expr} {t : Terms} (pos : 0 < w) (held : t.Collects w es)
    (hadd : AddsBelow add addGap w (weightSum es)) (hmul : MultipliesBelow mul mulGap w n)
    (light : ∀ e ∈ es, weight e < n) :
    ∃ rest merged, collectLike add mul w t = .ok (rest, merged) ∧
      merged.map Prod.fst = t.recurrences.map Prod.fst ∧
      Same .sum w (scaleTermsGap mulGap w t.multiples + mergeAllGap addGap t.recurrences) es
        (rest ++ merged.map Prod.snd) ∧
      ∀ p ∈ merged, p.2.isRecurrence = true ∨
        weightSum (rest ++ merged.map Prod.snd) < weightSum es := by
  have le := held.weight_le
  simp only [Terms.all, weightSum_append] at le
  have bases : ∀ p ∈ t.multiples, HasBits p.1 w ∧ weight p.1 < n := by
    intro p hp
    obtain ⟨typed, e, he, low⟩ := held.bases p hp
    exact ⟨typed, low.trans_lt (light e he)⟩
  obtain ⟨head, hhead, first⟩ := constantTerm_spec pos t.constant
  obtain ⟨scaled, hscaled, second⟩ := scaleTerms_spec pos bases hmul
  obtain ⟨merged, hmerged, keys, third, strict⟩ :=
    mergeAll_spec held.filled held.groups (by omega) hadd
  refine ⟨head ++ scaled, merged, ?_, keys, ?_, ?_⟩
  · simp only [collectLike, Word.signed_eq pos, ok_bind, hhead, hscaled, hmerged]
    rfl
  · rw [List.append_assoc]
    exact (held.same (first.append (second.append third))).congr_gap fun ρ => by simp
  · have low₁ : weightSum head ≤ weightSum (constantTerms w t.constant) := first.weight_le
    have low₂ : weightSum scaled ≤ weightSum (t.multiples.map (multiple w)) := second.weight_le
    intro p hp
    simp only [weightSum_append]
    exact (strict p hp).imp_right fun h => by omega

private theorem mentions_key {es : List Expr} {t : Terms} (held : t.Collects w es) {l : Loop}
    (key : l ∈ t.recurrences.map Prod.fst) : Mentions es l := by
  obtain ⟨g, hg, rfl⟩ := List.mem_map.mp key
  obtain ⟨p, hp⟩ := List.exists_mem_of_ne_nil _ (held.filled g hg)
  intro A L within
  have inside : recurrence p.1 p.2 g.1 ∈ t.all w := by
    refine List.mem_append_right _ (List.mem_append_right _ (List.mem_flatMap.mpr ⟨g, hg, ?_⟩))
    exact List.mem_map_of_mem hp
  exact (BuiltOver.recurrence_iff.mp (held.built A L within _ inside)).1

/-- One step of a sum has a result that stands for the operands, but for the gap of the step. -/
theorem sumStep_spec (iw : Int) {ops : List Expr} (some : ops ≠ []) (typed : AllBits ops w)
    (hadd : AddsBelow add addGap w (weightSum ops))
    (hmul : MultipliesBelow mul mulGap w (weightSum ops + 2 - ops.length)) :
    ∃ r, sumStep add mul iw ops = .ok r ∧
      Same .sum w (sumStepGap add mul addGap mulGap iw ops) ops [r] := by
  have pos := typed.pos some
  have opened : Same .sum w 0 ops (flatten .sum ops) := Same.flatten (.inl rfl) typed
  have fsome : flatten .sum ops ≠ [] := flatten_ne_nil typed some
  have light : ∀ e ∈ flatten .sum ops, weight e < weightSum ops + 2 - ops.length := by
    intro e he
    have low := weight_add_length_le he
    have length := @length_le_flatten .sum ops w typed
    rw [weightSum_flatten typed] at low
    omega
  obtain ⟨t, ht, held⟩ := Terms.ofList_collects opened.typed
  rw [← weightSum_flatten typed] at hadd
  obtain ⟨rest, merged, hlike, keys, same, strict⟩ := collectLike_spec pos held hadd hmul light
  have known : ∀ p ∈ merged, Mentions (flatten .sum ops) p.1 := fun p hp =>
    mentions_key held (keys ▸ List.mem_map_of_mem hp)
  obtain ⟨r, hr, joined⟩ := joinLike_spec fsome pos same (keys ▸ held.distinct) known strict hadd
  have width := commonWidth_eq iw opened.typed fsome
  refine ⟨r, ?_, (opened.trans joined).congr_gap fun ρ => ?_⟩
  · simp only [sumStep, List.isEmpty_eq_false_iff.mpr some, typed.no_uncomputable, width, ht, hlike,
      ok_bind, Bool.false_eq_true, if_false]
    exact hr
  · simp [sumStepGap, width, ht, hlike]

end ShapeRecovery.Expr
