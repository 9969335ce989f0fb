import ShapeRecovery.Proofs.Expr.Halting

namespace ShapeRecovery.Expr

variable {w : Int} {es : List Expr}

private theorem asMultiple_halts (e : Expr) : Halts (asMultiple e) fun part => weight part.2 ≤ weight e := by
  unfold asMultiple
  split
  · exact .error (by simp)
  · exact .ok (by simp [weight, weightProduct, padding])
  · next v b rest notPair =>
    apply Ends.ok
    match rest with
    | [] => simp [weight, weightProduct, padding]
    | [e] => exact absurd rfl (notPair e)
    | e :: f :: rest => simp [weight, weightProduct, padding]
  · exact .ok le_rfl

namespace Terms

/-- The terms of a sum weigh no more than its operands `es`. -/
structure Gathers (es : List Expr) (t : Terms) : Prop where
  bases : ∀ p ∈ t.multiples, ∃ e ∈ es, weight p.1 ≤ weight e
  weight_le : weightSum (t.all 0) ≤ weightSum es
  distinct : (t.recurrences.map Prod.fst).Nodup
  filled : ∀ g ∈ t.recurrences, g.2 ≠ []

private theorem gathers_empty : Gathers [] empty where
  bases := by simp [empty]
  weight_le := by simp [all, empty, constantTerms, weightSum]
  distinct := by simp [empty]
  filled := by simp [empty]

variable {t : Terms} {e : Expr}

theorem Gathers.bases_append (h : Gathers es t) (e : Expr) :
    ∀ p ∈ t.multiples, ∃ f ∈ es ++ [e], weight p.1 ≤ weight f := by
  intro p hp
  obtain ⟨f, hf, light⟩ := h.bases p hp
  exact ⟨f, by simp [hf], light⟩

private theorem insert_halts (h : Gathers es t) (e : Expr) : Halts (insert t e) (Gathers (es ++ [e])) := by
  have old := h.weight_le
  have multiple (run : insert t e = asMultiple e >>= fun part =>
      pure { t with multiples := addMultiple part.2 part.1 t.multiples }) :
      Halts (insert t e) (Gathers (es ++ [e])) := by
    rw [run]
    refine (asMultiple_halts e).bind fun part light => .ok ?_
    refine ⟨fun p hp => ?_, ?_, h.distinct, h.filled⟩
    · rcases addMultiple_mem hp with base | ⟨q, hq, base⟩
      · exact ⟨e, by simp, base ▸ light⟩
      · exact base ▸ h.bases_append e q hq
    · have new := weightSum_addMultiple 0 part.2 part.1 t.multiples
      simp only [all, weightSum_append, weightSum] at old ⊢
      omega
  cases e with
  | const v b =>
    refine .ok ⟨h.bases_append _, ?_, h.distinct, h.filled⟩
    simp only [all, weightSum_append, weightSum_constantTerms, weightSum, weight] at old ⊢
    split <;> omega
  | recurrence a b l =>
    refine .ok ⟨h.bases_append _, ?_, addRecurrence_nodup h.distinct, addRecurrence_filled h.filled⟩
    have filed := weightSum_perm (addRecurrence_perm l (a, b) t.recurrences)
    simp only [all, weightSum_append, filed, weightSum] at old ⊢
    omega
  | _ => exact multiple rfl

private theorem ofList_halts (es : List Expr) : Halts (ofList es) (Gathers es) := by
  have run : ∀ (fs done : List Expr) (t : Terms), Gathers done t →
      Halts (fs.foldlM insert t) (Gathers (done ++ fs)) := by
    intro fs
    induction fs with
    | nil =>
      intro done t h
      exact .ok (by simpa using h)
    | cons f fs ih =>
      intro done t h
      rw [List.foldlM_cons]
      refine (insert_halts h f).bind fun t' h' => ?_
      simpa using ih (done ++ [f]) t' h'
  exact run es [] empty gathers_empty

end Terms

/-- Sums that cost less than `n` run alike under two bounds, and weigh no more than their operands. -/
def SumsAgree (add add' : Build) (n : Nat) : Prop :=
  ∀ es, sumCost es < n → Agree (add es) (add' es) fun r => weight r ≤ weightSum es

/-- Products that cost less than `n` run alike under two bounds, and weigh no more than their operands
when those are multiplied out. -/
def ProductsAgree (mul mul' : Build) (n : Nat) : Prop :=
  ∀ es, productCost es < n → Agree (mul es) (mul' es) fun r => weight r ≤ weightProduct es

variable {add add' mul mul' : Build} {n : Nat} {l : Loop}

open Terms (multiple)

section sum

private theorem scaleTerm_agree (hmul : ProductsAgree mul mul' n) {b : Expr} (light : 3 * weight b + 1 < n)
    (c : Int) : Agree (scaleTerm mul w b c) (scaleTerm mul' w b c)
      fun es => weightSum es ≤ weight b := by
  refine .after (signed_halts c w) fun c _ => ?_
  by_cases one : c = 1
  · simpa only [one, if_true] using .ok (by simp [weightSum])
  by_cases nought : c = 0
  · simpa only [one, nought, if_false, if_true] using .ok (by simp [weightSum])
  simp only [one, nought, if_false]
  refine .after (ofInt_halts c w) fun k unit => ?_
  have product : weightProduct [k, b] = weight b := by simp [weightProduct, unit]
  refine (hmul [k, b] (by rw [productCost, product]; exact light)).bind fun e low => .ok ?_
  simpa [weightSum] using product ▸ low

private theorem scaleTerms_agree (hmul : ProductsAgree mul mul' n) {ms : List (Expr × Int)}
    (light : ∀ p ∈ ms, 3 * weight p.1 + 1 < n) :
    Agree (scaleTerms mul w ms) (scaleTerms mul' w ms)
      fun es => weightSum es ≤ weightSum (ms.map (multiple 0)) := by
  induction ms with
  | nil => exact .ok le_rfl
  | cons p ms ih =>
    obtain ⟨first, others⟩ := List.forall_mem_cons.mp light
    refine (scaleTerm_agree hmul first p.2).bind fun here low => ?_
    refine (ih others).bind fun rest low' => .ok ?_
    simp only [weightSum_append, List.map_cons, weightSum, Terms.weight_multiple]
    omega

/-- The recurrences of one loop merge into a recurrence, or into something lighter. -/
private theorem mergeParts_agree {parts : List (Expr × Expr)} (some : parts ≠ [])
    (hadd : SumsAgree add add' n) (light : 3 * weightSum (groupTerms (l, parts)) ≤ n) :
    Agree (mergeParts add l parts) (mergeParts add' l parts) fun e =>
      weight e ≤ weightSum (groupTerms (l, parts)) ∧
        (e.isRecurrence = true ∨ weight e < weightSum (groupTerms (l, parts))) := by
  have length := List.length_pos_of_ne_nil some
  have weights := weightSum_groupTerms l parts
  match parts, some with
  | [(a, b)], _ => exact .ok ⟨by simp [groupTerms, weightSum], .inl rfl⟩
  | p :: q :: parts, some =>
    have cheap (side : Expr × Expr → Expr) (low : weightSum ((p :: q :: parts).map side) <
        weightSum (groupTerms (l, p :: q :: parts))) : sumCost ((p :: q :: parts).map side) < n := by
      rw [sumCost_of_several (by simp)]
      omega
    refine (hadd _ (cheap Prod.fst (by omega))).bind fun a low => ?_
    refine (hadd _ (cheap Prod.snd (by omega))).bind fun b low' => .ok ?_
    have total := weight_recur_le a b l
    refine ⟨by omega, ?_⟩
    have positive := weight_pos b
    exact recur_induction (P := fun e => e.isRecurrence = true ∨ weight e < _) l
      (.inr (by simp only [weight]; omega)) (fun _ => .inr (by omega)) fun _ => .inl rfl

private theorem mergeAll_agree {gs : List (Loop × List (Expr × Expr))} (filled : ∀ g ∈ gs, g.2 ≠ [])
    (hadd : SumsAgree add add' n) (light : 3 * weightSum (gs.flatMap groupTerms) ≤ n) :
    Agree (mergeAll add gs) (mergeAll add' gs) fun merged =>
      merged.map Prod.fst = gs.map Prod.fst ∧
        weightSum (merged.map Prod.snd) ≤ weightSum (gs.flatMap groupTerms) ∧
          ∀ p ∈ merged, p.2.isRecurrence = true ∨
            weightSum (merged.map Prod.snd) < weightSum (gs.flatMap groupTerms) := by
  induction gs with
  | nil => exact .ok ⟨rfl, le_rfl, by simp⟩
  | cons g gs ih =>
    obtain ⟨l, parts⟩ := g
    have some : parts ≠ [] := filled (l, parts) (by simp)
    simp only [List.flatMap_cons, weightSum_append] at light ⊢
    refine (mergeParts_agree some hadd (by omega)).bind fun e merges => ?_
    obtain ⟨low, strict⟩ := merges
    have others : ∀ g ∈ gs, g.2 ≠ [] := fun g hg => filled g (by simp [hg])
    refine (ih others (by omega)).bind fun merged rest => .ok ?_
    obtain ⟨keys, low', strict'⟩ := rest
    simp only [List.map_cons, weightSum]
    refine ⟨by rw [keys], by omega, fun p hp => ?_⟩
    rcases List.mem_cons.mp hp with rfl | hp
    · exact strict.imp_right fun h => by omega
    · exact (strict' p hp).imp_right fun h => by omega

/-- Adding terms to the start of a recurrence costs less than adding them to the recurrence; anything
else must have become lighter before. -/
private theorem addInvariant_agree {moved : List Expr} {e : Expr} {m : Nat} (hadd : SumsAgree add add' (3 * m))
    (low : weight e + weightSum moved ≤ m)
    (strict : e.isRecurrence = true ∨ weight e + weightSum moved < m) :
    Agree (addInvariant add l moved e) (addInvariant add' l moved e) fun r =>
      weight r ≤ weight e + weightSum moved := by
  have still (lighter : weight e + weightSum moved < m)
      (run : ∀ add, addInvariant add l moved e = if moved.isEmpty then .ok e else add (e :: moved)) :
      Agree (addInvariant add l moved e) (addInvariant add' l moved e) fun r =>
        weight r ≤ weight e + weightSum moved := by
    rw [run, run]
    cases moved with
    | nil => exact .ok (by simp)
    | cons f moved =>
      apply hadd
      rw [sumCost_of_several (by simp)]
      simp only [weightSum] at lighter ⊢
      omega
  cases e with
  | recurrence a b k =>
    have positive := weight_pos b
    simp only [weight] at low ⊢
    have cheap : sumCost (a :: moved) < 3 * m := by
      have bound := sumCost_le (a :: moved)
      simp only [weightSum] at bound
      omega
    refine (hadd _ cheap).bind fun start start_le => .ok ?_
    have total := weight_recur_le start b l
    simp only [weightSum] at start_le
    omega
  | _ => exact still (strict.resolve_left (by simp [isRecurrence])) fun add => rfl

private theorem foldInto_agree {rest : List Expr} {e : Expr} {m : Nat} (hadd : SumsAgree add add' (3 * m))
    (low : weight e + weightSum rest ≤ m)
    (strict : e.isRecurrence = true ∨ weight e + weightSum rest < m) :
    Agree (foldInto add l e rest) (foldInto add' l e rest) fun r =>
      weight r ≤ weight e + weightSum rest := by
  have parted := weightSum_perm (List.filter_append_perm (fun o => !o.dependsOn l) rest)
  simp only [Bool.not_not, weightSum_append] at parted
  have moved_le : weight e + weightSum (rest.filter fun o => !o.dependsOn l) ≤ m := by omega
  refine (addInvariant_agree hadd moved_le (strict.imp_right fun h => by omega)).bind fun r total => ?_
  split
  · exact .ok (by omega)
  · refine .of_halts ((ordered_halts .sum _).mono fun s arranged => ?_)
    rw [arranged.weight_sum (by simp), weightSum]
    omega

private theorem joinLike_agree {rest : List Expr} {merged : List (Loop × Expr)} {m : Nat} (pos : 0 < m)
    (hadd : SumsAgree add add' (3 * m)) (distinct : (merged.map Prod.fst).Nodup)
    (low : weightSum (rest ++ merged.map Prod.snd) ≤ m)
    (strict : ∀ p ∈ merged, p.2.isRecurrence = true ∨
      weightSum (rest ++ merged.map Prod.snd) < m) :
    Agree (joinLike add w rest merged) (joinLike add' w rest merged) fun r => weight r ≤ m := by
  cases merged with
  | nil =>
    refine .of_halts ?_
    simp only [joinLike]
    split
    · exact (ofInt_halts 0 w).mono fun r unit => by omega
    · next filled =>
      refine (ordered_halts .sum rest).mono fun r arranged => ?_
      rw [arranged.weight_sum (by simpa using filled)]
      simpa using low
  | cons first more =>
    obtain ⟨e, others, taken, mem, perm⟩ := takeInnermost_spec distinct
    have total : weightSum (rest ++ (first :: more).map Prod.snd) =
        weight e + weightSum (rest ++ others) := by
      rw [weightSum_append, weightSum_perm perm, weightSum_append, weightSum]
      omega
    rw [total] at low strict
    simp only [joinLike, taken]
    exact (foldInto_agree hadd low (strict _ mem)).mono fun r h => h.trans low

private theorem collectLike_agree {t : Terms} {m : Nat} (gathers : t.Gathers es) (hadd : SumsAgree add add' n)
    (hmul : ProductsAgree mul mul' n) (light : ∀ e ∈ es, 3 * weight e + 1 < n)
    (bound : weightSum es ≤ m) (cheap : 3 * m ≤ n) :
    Agree (collectLike add mul w t) (collectLike add' mul' w t) fun like =>
      (like.2.map Prod.fst).Nodup ∧ weightSum (like.1 ++ like.2.map Prod.snd) ≤ m ∧
        ∀ p ∈ like.2, p.2.isRecurrence = true ∨ weightSum (like.1 ++ like.2.map Prod.snd) < m := by
  have total := gathers.weight_le
  simp only [Terms.all, weightSum_append, Terms.weightSum_constantTerms] at total
  have bases : ∀ p ∈ t.multiples, 3 * weight p.1 + 1 < n := by
    intro p hp
    obtain ⟨e, he, low⟩ := gathers.bases p hp
    have here := light e he
    omega
  have signed : Halts (Word.signed t.constant w) fun c => t.constant = 0 → c = 0 := by
    unfold Word.signed
    split
    · exact .error (by simp)
    · exact .ok fun nought => by simp [nought]
  have constant (c : Int) : Halts (constantTerm w c) fun head => weightSum head = if c = 0 then 0 else 1 := by
    unfold constantTerm
    split
    · exact .ok (by simp [weightSum])
    · exact (ofInt_halts c w).bind fun e unit => .ok (by simp [weightSum, unit])
  refine .after signed fun c wraps => .after (constant c) fun head unit => ?_
  refine (scaleTerms_agree hmul bases).bind fun scaled low => ?_
  refine (mergeAll_agree gathers.filled hadd (by omega)).bind fun merged merges => .ok ?_
  obtain ⟨keys, low', strict⟩ := merges
  have head_le : weightSum head ≤ if t.constant = 0 then 0 else 1 := by
    rw [unit]
    split
    · exact Nat.zero_le _
    · next nonzero => rw [if_neg fun nought => nonzero (wraps nought)]
  simp only [weightSum_append]
  refine ⟨keys ▸ gathers.distinct, by omega, fun p hp => ?_⟩
  exact (strict p hp).imp_right fun h => by omega

private theorem sumStep_agree (iw : Int) (ops : List Expr) (hadd : SumsAgree add add' (sumCost ops))
    (hmul : ProductsAgree mul mul' (sumCost ops)) :
    Agree (sumStep add mul iw ops) (sumStep add' mul' iw ops) fun r => weight r ≤ weightSum ops := by
  by_cases none : ops.isEmpty = true
  · simpa only [sumStep, none, if_true] using .of_halts (.error (by simp))
  have length := List.length_pos_of_ne_nil (by simpa using none)
  have heavy := length_le_weightSum ops
  by_cases computable : ops.contains uncomputable = true
  · simpa only [sumStep, none, computable, Bool.false_eq_true, if_false, if_true] using
      .ok (by simp only [weight]; omega)
  simp only [sumStep, none, computable, Bool.false_eq_true, if_false]
  have several : 3 * weightSum ops ≤ sumCost ops := by
    unfold sumCost
    omega
  have light : ∀ e ∈ flatten .sum ops, 3 * weight e + 1 < sumCost ops := by
    intro e he
    have beside := weight_add_length_le_of_flatten he
    unfold sumCost padding
    split <;> omega
  refine .after (commonWidth_halts iw _) fun w _ => .after (Terms.ofList_halts _) fun t gathers => ?_
  refine (collectLike_agree gathers hadd hmul light (weightSum_flatten_le ops) several).bind ?_
  rintro ⟨rest, merged⟩ ⟨distinct, low, strict⟩
  exact joinLike_agree (by omega) (fun es cheap => hadd es (by omega)) distinct low strict

end sum

section product

private theorem constantFactor_halts (w c : Int) (es : List Expr) :
    Halts (constantFactor w c es) fun _ => True := by
  induction es generalizing c with
  | nil => exact .ok trivial
  | cons e es ih =>
    cases e with
    | const v b => exact (signed_halts (c * v) w).bind fun c _ => ih c
    | _ => exact ih c

private theorem constantHead_halts (w c : Int) :
    Halts (constantHead w c) fun head => weightProduct head = 1 := by
  unfold constantHead
  split
  · exact .ok rfl
  · exact (ofInt_halts c w).bind fun e unit => .ok (by simp [weightProduct, unit])

private theorem distribute_agree {k : Expr} (unit : weight k = 1) (hmul : ProductsAgree mul mul' n)
    (light : ∀ e ∈ es, 3 * weight e + 1 < n) :
    Agree (distribute mul k es) (distribute mul' k es) fun terms =>
      weightSum terms ≤ weightSum es ∧ terms.length = es.length := by
  induction es with
  | nil => exact .ok ⟨le_rfl, rfl⟩
  | cons e es ih =>
    obtain ⟨here, others⟩ := List.forall_mem_cons.mp light
    have product : weightProduct [k, e] = weight e := by simp [weightProduct, unit]
    refine (hmul [k, e] (by rw [productCost, product]; exact here)).bind fun p low => ?_
    refine (ih others).bind fun rest distributed => .ok ?_
    obtain ⟨low', length⟩ := distributed
    refine ⟨?_, by simp [length]⟩
    simp only [weightSum]
    omega

/-- A recurrence is scaled by scaling its parts, which are lighter. -/
private theorem scale_agree {scale : List Expr} {a b : Expr} (hmul : ProductsAgree mul mul' n)
    (cheap : productCost (scale ++ [recurrence a b l]) ≤ n) :
    Agree (do let start ← mul (scale ++ [a]); let step ← mul (scale ++ [b]); return recur start step l)
      (do let start ← mul' (scale ++ [a]); let step ← mul' (scale ++ [b]); return recur start step l)
      fun r => weight r ≤ weightProduct (scale ++ [recurrence a b l]) := by
  have heavy := weightProduct_pos scale
  have expand : weightProduct (scale ++ [recurrence a b l]) =
      weightProduct scale + weightProduct scale * weight a + weightProduct scale * weight b := by
    simp only [weightProduct_append, weightProduct, weight]
    ring
  have part (e : Expr) : weightProduct (scale ++ [e]) = weightProduct scale * weight e := by
    simp [weightProduct]
  have first := part a
  have second := part b
  simp only [productCost] at cheap
  refine (hmul _ (by rw [productCost]; omega)).bind fun start low => ?_
  refine (hmul _ (by rw [productCost]; omega)).bind fun step low' => .ok ?_
  have total := weight_recur_le start step l
  omega

/-- A constant times a sum costs more than the products with its terms, and than their sum. -/
private theorem distributed_agree {k : Expr} (unit : weight k = 1) (hadd : SumsAgree add add' n)
    (hmul : ProductsAgree mul mul' n) (cheap : productCost [k, sum es] ≤ n) :
    Agree (do let terms ← distribute mul k es; add terms)
      (do let terms ← distribute mul' k es; add' terms)
      fun r => weight r ≤ weightProduct [k, sum es] := by
  have product : weightProduct [k, sum es] = padding es + weightSum es := by
    simp [weightProduct, weight, unit]
  have light : ∀ e ∈ es, 3 * weight e + 1 < n := by
    intro e he
    have beside := weight_add_length_le he
    have filled := List.length_pos_of_mem he
    simp only [productCost, product, padding] at cheap
    split at cheap <;> omega
  refine (distribute_agree unit hmul light).bind fun terms distributed => ?_
  obtain ⟨low, length⟩ := distributed
  have padded : padding terms = padding es := by simp [padding, length]
  refine (hadd terms ?_).mono fun r low' => by omega
  simp only [productCost, product] at cheap
  unfold sumCost
  omega

private theorem joinFactors_agree {head others : List Expr} (unit : weightProduct head = 1)
    (some : others ≠ []) (hadd : SumsAgree add add' n) (hmul : ProductsAgree mul mul' n)
    (cheap : productCost (head ++ others) ≤ n) :
    Agree (joinFactors add mul head others) (joinFactors add' mul' head others) fun r =>
      weight r ≤ weightProduct (head ++ others) := by
  simp only [joinFactors]
  split
  · next start step l scaled =>
    have perm := scalable_spec scaled
    have weights := weightProduct_perm perm
    rw [← weights]
    exact scale_agree hmul (by rw [productCost, weights]; exact cheap)
  · split
    · next k es =>
      exact distributed_agree (by simpa [weightProduct] using unit) hadd hmul cheap
    · refine .of_halts ((ordered_halts .product _).mono fun r arranged => ?_)
      exact (arranged.weight_product (by simp [some])).le

private theorem productStep_agree (iw : Int) (ops : List Expr) (hadd : SumsAgree add add' (productCost ops))
    (hmul : ProductsAgree mul mul' (productCost ops)) :
    Agree (productStep add mul iw ops) (productStep add' mul' iw ops) fun r =>
      weight r ≤ weightProduct ops := by
  have positive := weightProduct_pos ops
  have constant (v w : Int) : Agree (ofInt v w) (ofInt v w) fun r => weight r ≤ weightProduct ops :=
    .of_halts ((ofInt_halts v w).mono fun r unit => by omega)
  by_cases none : ops.isEmpty = true
  · simpa only [productStep, none, if_true, one] using constant 1 iw
  by_cases computable : ops.contains uncomputable = true
  · simpa only [productStep, none, computable, Bool.false_eq_true, if_false, if_true] using
      .ok (by simp only [weight]; omega)
  simp only [productStep, none, computable, Bool.false_eq_true, if_false]
  refine .after (commonWidth_halts iw _) fun w _ => .after (constantFactor_halts w 1 _) fun c _ => ?_
  split
  · exact constant 0 w
  split
  · exact constant c w
  next filled =>
  refine .after (constantHead_halts w c) fun head unit => ?_
  have low : weightProduct (head ++ (flatten .product ops).filter fun o => !o.isConst) ≤
      weightProduct ops := by
    rw [weightProduct_append, unit, one_mul]
    exact (weightProduct_sublist List.filter_sublist).trans (weightProduct_flatten_le ops)
  refine (joinFactors_agree unit (by simpa using filled) hadd hmul ?_).mono fun r h => h.trans low
  simp only [productCost]
  omega

end product

/-- Beyond the cost of the operands, the bound on the nested steps makes no difference. -/
theorem within_agree (iw : Int) (m n : Nat) :
    (∀ ops, sumCost ops < m → sumCost ops < n →
      Agree (sumWithin iw m ops) (sumWithin iw n ops) fun r => weight r ≤ weightSum ops) ∧
    ∀ ops, productCost ops < m → productCost ops < n →
      Agree (productWithin iw m ops) (productWithin iw n ops) fun r => weight r ≤ weightProduct ops := by
  induction m generalizing n with
  | zero => exact ⟨fun _ h => absurd h (by omega), fun _ h => absurd h (by omega)⟩
  | succ m ih =>
    cases n with
    | zero => exact ⟨fun _ _ h => absurd h (by omega), fun _ _ h => absurd h (by omega)⟩
    | succ n =>
      obtain ⟨sums, products⟩ := ih n
      refine ⟨fun ops enough enough' => ?_, fun ops enough enough' => ?_⟩
      · exact sumStep_agree iw ops (fun es less => sums es (by omega) (by omega))
          fun es less => products es (by omega) (by omega)
      · exact productStep_agree iw ops (fun es less => sums es (by omega) (by omega))
          fun es less => products es (by omega) (by omega)

theorem sumOf_agree (iw : Int) {ops : List Expr} {fuel : Nat} (enough : fuelFor .sum ops ≤ fuel) :
    Agree (sumWithin iw fuel ops) (sumOf iw ops) fun r => weight r ≤ weightSum ops := by
  have cost := sumCost_lt_fuelFor ops
  exact (within_agree iw fuel _).1 ops (by omega) cost

theorem productOf_agree (iw : Int) {ops : List Expr} {fuel : Nat} (enough : fuelFor .product ops ≤ fuel) :
    Agree (productWithin iw fuel ops) (productOf iw ops) fun r => weight r ≤ weightProduct ops := by
  have cost := productCost_lt_fuelFor ops
  exact (within_agree iw fuel _).2 ops (by omega) cost

theorem sumOf_halts (iw : Int) (ops : List Expr) :
    Halts (sumOf iw ops) fun r => weight r ≤ weightSum ops :=
  (sumOf_agree iw le_rfl).halts

theorem productOf_halts (iw : Int) (ops : List Expr) :
    Halts (productOf iw ops) fun r => weight r ≤ weightProduct ops :=
  (productOf_agree iw le_rfl).halts

end ShapeRecovery.Expr
