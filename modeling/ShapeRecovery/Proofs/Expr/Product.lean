import ShapeRecovery.Proofs.Expr.Sum

namespace ShapeRecovery.Expr

/-- `add` gives sums of two or more operands of `w` bits that weigh at most `n` together. -/
def AddsSeveral (add : Build) (addGap : Account) (w : Int) (n : Nat) : Prop :=
  ∀ es, 2 ≤ es.length → AllBits es w → weightSum es ≤ n →
    ∃ r, add es = .ok r ∧ Same .sum w (addGap es) es [r]

variable {add mul : Build} {addGap mulGap : Account} {w : Int} {n : Nat}

/-- The constants of a product are multiplied into one. -/
private theorem constantFactor_spec (pos : 0 < w) {es : List Expr} (v : Int) :
    ∃ c, constantFactor w v es = .ok c ∧ ∀ ρ,
      (c : ZMod (Word.modulus w)) * ((es.filter fun o => !o.isConst).map (value w ρ)).prod =
        v * (es.map (value w ρ)).prod := by
  induction es generalizing v with
  | nil => exact ⟨v, rfl, fun ρ => rfl⟩
  | cons e es ih =>
    have skip (other : e.isConst = false) (step : constantFactor w v (e :: es) = constantFactor w v es) :
        ∃ c, constantFactor w v (e :: es) = .ok c ∧ ∀ ρ, (c : ZMod (Word.modulus w)) *
          (((e :: es).filter fun o => !o.isConst).map (value w ρ)).prod =
            v * ((e :: es).map (value w ρ)).prod := by
      obtain ⟨c, hc, total⟩ := ih v
      refine ⟨c, step.trans hc, fun ρ => ?_⟩
      simp only [List.filter_cons, other, Bool.not_false, if_true, List.map_cons, List.prod_cons]
      linear_combination value w ρ e * total ρ
    cases e with
    | const u b =>
      obtain ⟨c, hc, total⟩ := ih ((v * u).bmod (Word.modulus w))
      refine ⟨c, by simp only [constantFactor, Word.signed_eq pos, ok_bind, hc], fun ρ => ?_⟩
      have folded := total ρ
      rw [Word.cast_bmod, Int.cast_mul] at folded
      rw [List.filter_cons_of_neg (by simp [isConst]), List.map_cons, List.prod_cons, value_const]
      linear_combination folded
    | _ => exact skip rfl rfl

private theorem constantHead_spec (pos : 0 < w) (c : Int) :
    ∃ head, constantHead w c = .ok head ∧ AllBits head w ∧ weightProduct head = 1 ∧
      (∀ A L, ∀ e ∈ head, BuiltOver A L e) ∧ (∀ e ∈ head, ∃ v, e = const v w) ∧
      ∀ ρ, (head.map (value w ρ)).prod = (c : ZMod (Word.modulus w)) := by
  by_cases one : c = 1
  · exact ⟨[], by simp [constantHead, one], AllBits.nil, rfl, by simp, by simp, by simp [one]⟩
  · refine ⟨[const (c.bmod (Word.modulus w)) w], ?_, ?_, ?_, ?_, by simp, fun ρ => by simp⟩
    · simp [constantHead, one, ofInt_eq pos]
    · simpa using hasBits_const_bmod pos c
    · simp [weightProduct, weight]
    · intro A L e he
      rw [List.mem_singleton.mp he]
      exact .const _ _

/-- The constants of a product can be multiplied into one that stands first. -/
theorem same_factors (pos : 0 < w) {es : List Expr} (typed : AllBits es w) :
    ∃ c head, constantFactor w 1 es = .ok c ∧ constantHead w c = .ok head ∧
      (∀ e ∈ head, ∃ v, e = const v w) ∧
      (∀ ρ, (head.map (value w ρ)).prod = (c : ZMod (Word.modulus w))) ∧
      Same .product w 0 es (head ++ es.filter fun o => !o.isConst) := by
  obtain ⟨c, hc, total⟩ := @constantFactor_spec w pos es 1
  obtain ⟨head, hh, htyped, hweight, hbuilt, hconst, hvalue⟩ := constantHead_spec pos c
  refine ⟨c, head, hc, hh, hconst, hvalue, ?_, ?_, ?_, fun ρ => ?_, fun _ _ _ _ => rfl⟩
  · exact AllBits.append.mpr ⟨htyped, fun e he => typed e (List.mem_of_mem_filter he)⟩
  · simpa [weightOf, hweight] using weightProduct_sublist List.filter_sublist
  · intro A L within e he
    rcases List.mem_append.mp he with he | he
    · exact hbuilt A L e he
    · exact within e (List.mem_of_mem_filter he)
  · simpa [hvalue ρ] using total ρ

/-- Factors without a recurrence are not scaled. -/
theorem scalable_none {factors : List Expr} (still : ∀ f ∈ factors, f.isRecurrence = false) :
    scalable? factors = none := by
  have none : (factors.filter fun f => f.isRecurrence) = [] :=
    List.filter_eq_nil_iff.mpr fun f hf => by simp [still f hf]
  simp [scalable?, none]

theorem scalable_spec {factors : List Expr} {a b : Expr} {l : Loop}
    (h : scalable? factors = some (a, b, l)) :
    ((factors.filter fun f => !f.isRecurrence) ++ [recurrence a b l]).Perm factors := by
  have split := List.filter_append_perm (fun f : Expr => f.isRecurrence) factors
  unfold scalable? at h
  split at h
  · next start step m single =>
    rw [single] at split
    have all : some (start, step, m) = some (a, b, l) := by
      revert h
      dsimp only
      split <;> simp
    cases all
    exact List.perm_append_comm.trans split
  · simp at h

/-- A recurrence is scaled in its start and in its step. -/
private theorem scale_spec {scale : List Expr} {a b : Expr} {l : Loop}
    (typed : AllBits (scale ++ [recurrence a b l]) w)
    (hmul : MultipliesBelow mul mulGap w (weightProduct (scale ++ [recurrence a b l]))) :
    ∃ start step, mul (scale ++ [a]) = .ok start ∧ mul (scale ++ [b]) = .ok step ∧
      Same .product w (mulGap (scale ++ [a]) + mulGap (scale ++ [b]) * iterations l)
        (scale ++ [recurrence a b l]) [recur start step l] := by
  obtain ⟨hscale, single⟩ := AllBits.append.mp typed
  obtain ⟨ha, hb⟩ := HasBits.recurrence_iff.mp (single _ (List.mem_singleton_self _))
  have heavy := weightProduct_pos scale
  simp only [weightProduct_append, weightProduct, weight, mul_one] at hmul
  have expand : weightProduct scale * (1 + weight a + weight b) =
      weightProduct scale + weightProduct scale * weight a + weightProduct scale * weight b := by
    ring
  rw [expand] at hmul
  obtain ⟨start, hs, same⟩ := hmul (scale ++ [a]) (by simp) (by simp [hscale, ha])
    (by simp only [weightProduct_append, weightProduct, mul_one]; omega)
  obtain ⟨step, ht, same'⟩ := hmul (scale ++ [b]) (by simp) (by simp [hscale, hb])
    (by simp only [weightProduct_append, weightProduct, mul_one]; omega)
  have inside : ∀ A L, (∀ e ∈ scale ++ [recurrence a b l], BuiltOver A L e) → L l ∧
      (∀ e ∈ scale ++ [a], BuiltOver A L e) ∧ ∀ e ∈ scale ++ [b], BuiltOver A L e := by
    intro A L within
    have whole := BuiltOver.recurrence_iff.mp (within (recurrence a b l) (by simp))
    have others : ∀ e ∈ scale, BuiltOver A L e := fun e he => within e (by simp [he])
    refine ⟨whole.1, ?_, ?_⟩
    · simpa [or_imp, forall_and] using ⟨others, whole.2.1⟩
    · simpa [or_imp, forall_and] using ⟨others, whole.2.2⟩
  refine ⟨start, step, hs, ht, ?_, ?_, ?_, fun ρ => ?_, ?_⟩
  · simpa using hasBits_recur l same.hasBits same'.hasBits
  · have low := same.weight_single_product
    have low' := same'.weight_single_product
    have total := weight_recur_le start step l
    simp only [weightProduct_append, weightProduct, mul_one] at low low'
    simp only [weightOf, weightProduct_append, weightProduct, weight, mul_one, expand]
    omega
  · intro A L within e he
    rw [List.mem_singleton.mp he]
    obtain ⟨known, starts, steps⟩ := inside A L within
    exact builtOver_recur same.hasBits same'.hasBits known (same.built_single starts)
      (same'.built_single steps)
  · have first := same.value_single_product ρ
    have second := same'.value_single_product ρ
    simp only [List.map_append, List.prod_append, List.map_cons, List.map_nil, List.prod_cons,
      List.prod_nil, mul_one] at first second
    simp only [value_product, List.map_append, List.prod_append, List.map_cons, List.map_nil,
      List.prod_cons, List.prod_nil, mul_one, value_recurrence, first, second,
      value_recur l same.hasBits same'.hasBits, Pi.add_apply, Pi.mul_apply, iterations_apply]
    push_cast
    ring
  · intro L ρ within inStep
    obtain ⟨-, starts, steps⟩ := inside _ L within
    simp [same.noGap L ρ starts inStep, same'.noGap L ρ steps inStep]

open Terms (multiple)

/-- A constant is multiplied with every term of a sum. -/
private theorem distribute_spec {c : Int} {es : List Expr} (const : HasBits (const c w) w)
    (typed : AllBits es w) (light : ∀ e ∈ es, weight e < n)
    (hmul : MultipliesBelow mul mulGap w n) :
    ∃ terms, distribute mul (.const c w) es = .ok terms ∧ terms.length = es.length ∧
      Same .sum w (distributeGap mulGap (.const c w) es) (es.map fun e => multiple w (e, c))
        terms := by
  induction es with
  | nil => exact ⟨[], rfl, rfl, Same.refl AllBits.nil⟩
  | cons e es ih =>
    obtain ⟨he, hes⟩ := AllBits.cons.mp typed
    obtain ⟨terms, ht, length, rest⟩ := ih hes fun f hf => light f (by simp [hf])
    obtain ⟨p, hp, same⟩ := hmul [.const c w, e] (by simp) (by simpa using ⟨const, he⟩)
      (by simpa [weightProduct, weight] using light e (by simp))
    have here : Same .sum w (mulGap [.const c w, e]) [multiple w (e, c)] [p] := {
      typed := same.typed
      weight_le := by
        simpa [weightOf, weightSum, weightProduct, weight] using same.weight_single_product
      built A L within := by
        have whole := BuiltOver.product_iff.mp (within _ (List.mem_singleton_self _))
        simpa using same.built_single whole
      total ρ := by simp [same.value_single_product ρ]
      noGap L ρ within := same.noGap L ρ
        (BuiltOver.product_iff.mp (within _ (List.mem_singleton_self _))) }
    exact ⟨p :: terms, by simp only [distribute, hp, ht, ok_bind]; rfl, by simp [length],
      here.append rest⟩

private theorem sum_multiple (ρ : Valuation) (c : Int) (es : List Expr) :
    ((es.map fun e => multiple w (e, c)).map (value w ρ)).sum =
      c * (es.map (value w ρ)).sum := by
  induction es with
  | nil => simp
  | cons e es ih =>
    simp only [List.map_cons, List.sum_cons, Terms.value_multiple, ih]
    ring

/-- A constant times a sum is the sum of the constant times its terms. -/
private theorem distributed_spec {c : Int} {es : List Expr}
    (typed : AllBits [const c w, sum es] w)
    (hadd : AddsSeveral add addGap w (weightProduct [const c w, sum es]))
    (hmul : MultipliesBelow mul mulGap w (weightProduct [const c w, sum es])) :
    ∃ terms r, distribute mul (const c w) es = .ok terms ∧ add terms = .ok r ∧
      Same .product w (distributeGap mulGap (const c w) es + addGap terms)
        [const c w, sum es] [r] := by
  obtain ⟨hc, rest⟩ := AllBits.cons.mp typed
  obtain ⟨several, parts⟩ := HasBits.nary_iff.mp (rest _ (List.mem_singleton_self _))
  have total : weightProduct [const c w, sum es] = weightSum es := by
    rw [weightProduct, weightProduct, weight_sum several, weightProduct, weight]
    omega
  rw [total] at hadd hmul
  have light : ∀ e ∈ es, weight e < weightSum es := fun e he => by
    have low := weight_add_length_le he
    omega
  obtain ⟨terms, ht, length, same⟩ := distribute_spec hc parts light hmul
  have low : weightSum terms ≤ weightSum es := by
    have heavy : weightSum (es.map fun e => multiple w (e, c)) = weightSum es := by
      simp [weightSum_eq, Function.comp_def]
    exact heavy ▸ same.weight_le
  obtain ⟨r, hr, same'⟩ := hadd terms (by omega) same.typed low
  have whole := same.trans same'
  have inside : ∀ A L, (∀ e ∈ [const c w, sum es], BuiltOver A L e) →
      ∀ e ∈ es.map fun e => multiple w (e, c), BuiltOver A L e := by
    intro A L within e he
    obtain ⟨d, hd, rfl⟩ := List.mem_map.mp he
    exact Terms.builtOver_multiple.mpr (BuiltOver.sum_iff.mp (within (sum es) (by simp)) d hd)
  refine ⟨terms, r, ht, hr, whole.typed, ?_, fun A L within => whole.built A L (inside A L within),
    fun ρ => ?_, fun L ρ within => whole.noGap L ρ (inside _ L within)⟩
  · have low' := same'.weight_single
    show weightProduct [r] ≤ weightProduct [const c w, sum es]
    rw [total, weightProduct, weightProduct]
    omega
  · have value := whole.value_single ρ
    rw [sum_multiple] at value
    simpa using value

private theorem joinFactorsGap_ordered {head others : List Expr} (none : scalable? (head ++ others) = none)
    (other : ∀ k es, head = [k] → others = [sum es] → False) :
    joinFactorsGap mul addGap mulGap head others = 0 := by
  simp [joinFactorsGap, none]

/-- The factors of a product are joined without loss, but for the gaps of what is made of them. -/
private theorem joinFactors_spec {head others : List Expr} (hconst : ∀ e ∈ head, ∃ v, e = const v w)
    (some : others ≠ []) (typed : AllBits (head ++ others) w)
    (hadd : AddsSeveral add addGap w (weightProduct (head ++ others)))
    (hmul : MultipliesBelow mul mulGap w (weightProduct (head ++ others))) :
    ∃ r, joinFactors add mul head others = .ok r ∧
      Same .product w (joinFactorsGap mul addGap mulGap head others) (head ++ others) [r] := by
  cases scaled : scalable? (head ++ others) with
  | some parts =>
    obtain ⟨a, b, l⟩ := parts
    have perm := scalable_spec scaled
    have moved := Same.of_perm (.inr rfl) perm typed
    rw [weightProduct_perm perm.symm] at hmul
    obtain ⟨start, step, hs, ht, same⟩ := scale_spec moved.typed hmul
    simp only [joinFactors, joinFactorsGap, scaled]
    exact ⟨_, by simp only [hs, ht, ok_bind]; rfl, (moved.trans same).congr_gap fun ρ => by simp⟩
  | none =>
    by_cases distributed : ∃ k es, head = [k] ∧ others = [sum es]
    · obtain ⟨k, es, rfl, rfl⟩ := distributed
      obtain ⟨c, rfl⟩ := hconst k (by simp)
      obtain ⟨terms, r, ht, hr, same⟩ := distributed_spec typed hadd hmul
      simp only [joinFactors, joinFactorsGap, scaled, ht, gapAfter_ok]
      exact ⟨r, by simp only [ok_bind, hr], same⟩
    · have alone : ∀ k es, head = [k] → others = [sum es] → False :=
        fun k es first second => distributed ⟨k, es, first, second⟩
      rw [joinFactors_ordered scaled alone, joinFactorsGap_ordered scaled alone]
      obtain ⟨r, hr, arranged⟩ := ordered_arranged .product typed.texts
      exact ⟨r, hr, Same.arranged (.inr rfl) arranged typed (by simp [some])⟩

/-- One step of a product has a result that stands for the operands, but for the gap of the step. -/
theorem productStep_spec (iw : Int) {ops : List Expr} (some : ops ≠ []) (typed : AllBits ops w)
    (hadd : AddsSeveral add addGap w (weightProduct ops))
    (hmul : MultipliesBelow mul mulGap w (weightProduct ops)) :
    ∃ r, productStep add mul iw ops = .ok r ∧
      Same .product w (productStepGap mul addGap mulGap iw ops) ops [r] := by
  have pos := typed.pos some
  have opened : Same .product w 0 ops (flatten .product ops) := Same.flatten (.inr rfl) typed
  have fsome : flatten .product ops ≠ [] := flatten_ne_nil typed some
  have width := commonWidth_eq iw opened.typed fsome
  obtain ⟨c, head, hc, hh, hconst, hvalue, folded⟩ := same_factors pos opened.typed
  have before := opened.trans folded
  have lighter := before.weight_le
  simp only [productStep, productStepGap, List.isEmpty_eq_false_iff.mpr some, typed.no_uncomputable,
    width, hc, hh, ok_bind, Bool.false_eq_true, if_false, gapAfter_ok]
  generalize (flatten .product ops).filter (fun o => !o.isConst) = others at before lighter ⊢
  -- Where no other factor counts, the product is its constant.
  have constantResult (eq : ∀ ρ, (ops.map (value w ρ)).prod = (c : ZMod (Word.modulus w))) :
      ∃ r, ofInt c w = .ok r ∧ Same .product w 0 ops [r] := by
    refine ⟨const (c.bmod (Word.modulus w)) w, ofInt_eq pos c, ?_, ?_, ?_, fun ρ => ?_,
      fun _ _ _ _ => rfl⟩
    · simpa using hasBits_const_bmod pos c
    · have heavy := weightProduct_pos ops
      simp only [weightOf, weightProduct, weight]
      omega
    · intro A L _ e he
      rw [List.mem_singleton.mp he]
      exact .const _ _
    · simpa using (eq ρ).symm
  have total : ∀ ρ, (ops.map (value w ρ)).prod = c * (others.map (value w ρ)).prod := by
    intro ρ
    have eq := before.total ρ
    simp only [value_product, List.map_append, List.prod_append, hvalue ρ] at eq
    simpa using eq.symm
  by_cases nought : c = 0
  · subst nought
    simpa [zero] using constantResult fun ρ => by simp [total ρ]
  by_cases none : others.isEmpty = true
  · rw [List.isEmpty_iff.mp none] at total
    simpa [nought, none] using constantResult fun ρ => by simp [total ρ]
  simp only [if_neg nought, if_neg none, if_neg (not_or.mpr ⟨nought, none⟩)]
  have osome : others ≠ [] := fun h => none (List.isEmpty_iff.mpr h)
  obtain ⟨r, hr, same⟩ := joinFactors_spec hconst osome before.typed
    (fun es several typed light => hadd es several typed (light.trans lighter))
    (fun es some typed light => hmul es some typed (light.trans_le lighter))
  exact ⟨r, hr, (before.trans same).congr_gap fun ρ => by simp⟩

end ShapeRecovery.Expr
