import Mathlib.Data.List.Induction
import ShapeRecovery.Expr.Canonical
import ShapeRecovery.Expr.Cast
import ShapeRecovery.Expr.Maximum
import ShapeRecovery.Expr.Typing
import ShapeRecovery.Proofs.Outcome

namespace ShapeRecovery.Expr

variable {op : Nary} {add mul : Build} {es fs ts rest head others : List Expr} {a b e r : Expr} {l : Loop}
  {v w c iw : Int}

section recur

/-- A recurrence is not computable, or stands still, or moves. -/
theorem recur_induction {P : Expr → Prop} (l : Loop) (none : P uncomputable)
    (still : b.isZero = true → P a) (moving : b.isZero = false → P (recurrence a b l)) :
    P (recur a b l) := by
  unfold recur
  split
  · exact none
  · cases zero : b.isZero with
    | true => exact still zero
    | false => exact moving zero

theorem recur_of_computable (l : Loop) (first : a ≠ uncomputable) (second : b ≠ uncomputable) :
    recur a b l = if b.isZero then a else recurrence a b l := by
  simp [recur, first, second]

end recur

section operands

theorem naryOp_eq : e.naryOp? = some op ↔ ∃ ops, e = .nary op ops := by
  cases e <;> simp [naryOp?]

@[simp] theorem flatten_nary (op : Nary) (fs es : List Expr) :
    flatten op (nary op fs :: es) = fs ++ flatten op es := by
  simp [flatten]

theorem flatten_other (other : e.naryOp? ≠ some op) (es : List Expr) :
    flatten op (e :: es) = e :: flatten op es := by
  cases e with
  | nary op' ops =>
    have apart : op' ≠ op := by simpa [naryOp?] using other
    simp [flatten, apart]
  | _ => rfl

/-- Operands by whether they are opened: a node of the operator is, and every other operand stays. -/
theorem flatten_induction (op : Nary) {motive : List Expr → Prop} (nil : motive [])
    (node : ∀ fs es, motive es → motive (nary op fs :: es))
    (other : ∀ e es, e.naryOp? ≠ some op → motive es → motive (e :: es)) (es : List Expr) :
    motive es := by
  induction es with
  | nil => exact nil
  | cons e es ih =>
    by_cases same : e.naryOp? = some op
    · obtain ⟨fs, rfl⟩ := naryOp_eq.mp same
      exact node fs es ih
    · exact other e es same ih

theorem flatten_append (op : Nary) (es fs : List Expr) :
    flatten op (es ++ fs) = flatten op es ++ flatten op fs := by
  induction es with
  | nil => rfl
  | cons e es ih => cases e <;> simp [flatten, ih]

theorem flatten_eq_flatMap (op : Nary) (es : List Expr) :
    flatten op es = es.flatMap fun e => flatten op [e] := by
  induction es with
  | nil => rfl
  | cons e es ih => rw [List.flatMap_cons, ← ih, ← flatten_append, List.singleton_append]

/-- Where no operand is to be opened, all stay. -/
theorem flatten_opened (opened : ∀ e ∈ es, e.naryOp? ≠ some op) : flatten op es = es := by
  induction es with
  | nil => rfl
  | cons e es ih =>
    obtain ⟨here, rest⟩ := List.forall_mem_cons.mp opened
    rw [flatten_other here, ih rest]

theorem mem_flatten (mem : e ∈ flatten op es) :
    (e ∈ es ∧ e.naryOp? ≠ some op) ∨ ∃ fs, nary op fs ∈ es ∧ e ∈ fs := by
  rw [flatten_eq_flatMap] at mem
  obtain ⟨f, hf, mem⟩ := List.mem_flatMap.mp mem
  by_cases same : f.naryOp? = some op
  · obtain ⟨fs, rfl⟩ := naryOp_eq.mp same
    exact .inr ⟨fs, hf, by simpa [flatten] using mem⟩
  · obtain rfl : e = f := by simpa [flatten_other same, flatten] using mem
    exact .inl ⟨hf, same⟩

end operands

section constants

/-- A constant that was wrapped is its own wrapped value. -/
theorem signed_signed (run : Word.signed v w = .ok c) : Word.signed c w = .ok c := by
  unfold Word.signed at run ⊢
  split at run
  · cases run
  · next pos =>
    cases run
    rw [if_neg pos, Int.bmod_bmod]

theorem ofInt_cases (run : ofInt v w = .ok r) : ∃ c, Word.signed v w = .ok c ∧ r = const c w := by
  obtain ⟨c, hc, made⟩ := bind_eq_ok.mp run
  exact ⟨c, hc, (Except.ok.inj made).symm⟩

theorem ofInt_of_signed (wrapped : Word.signed c w = .ok c) : ofInt c w = .ok (const c w) := by
  simp [ofInt, wrapped]

theorem constantTerm_cases (run : constantTerm w c = .ok es) :
    c = 0 ∧ es = [] ∨ c ≠ 0 ∧ ∃ k, ofInt c w = .ok k ∧ es = [k] := by
  unfold constantTerm at run
  split at run
  · next nought => exact .inl ⟨nought, (Except.ok.inj run).symm⟩
  · next nonzero =>
    obtain ⟨k, hk, made⟩ := bind_eq_ok.mp run
    exact .inr ⟨nonzero, k, hk, (Except.ok.inj made).symm⟩

theorem constantHead_cases (run : constantHead w c = .ok es) :
    c = 1 ∧ es = [] ∨ c ≠ 1 ∧ ∃ k, ofInt c w = .ok k ∧ es = [k] := by
  unfold constantHead at run
  split at run
  · next one => exact .inl ⟨one, (Except.ok.inj run).symm⟩
  · next other =>
    obtain ⟨k, hk, made⟩ := bind_eq_ok.mp run
    exact .inr ⟨other, k, hk, (Except.ok.inj made).symm⟩

/-- The constant of a product is a wrapped one, unless it is the one that it started with. -/
theorem constantFactor_run (start : v = 1 ∨ Word.signed v w = .ok v)
    (run : constantFactor w v es = .ok c) : c = 1 ∨ Word.signed c w = .ok c := by
  induction es generalizing v with
  | nil =>
    cases run
    exact start
  | cons e es ih =>
    cases e with
    | const u b =>
      obtain ⟨next, step, run⟩ := bind_eq_ok.mp run
      exact ih (.inr (signed_signed step)) run
    | _ => exact ih start run

/-- The constant in front of the factors is not one. -/
theorem constantHead_run (origin : c = 1 ∨ Word.signed c w = .ok c)
    (run : constantHead w c = .ok head) : head = [] ∨ c ≠ 1 ∧ head = [const c w] := by
  rcases constantHead_cases run with ⟨-, rfl⟩ | ⟨other, k, hk, rfl⟩
  · exact .inl rfl
  · rw [ofInt_of_signed (origin.resolve_left other)] at hk
    cases hk
    exact .inr ⟨other, rfl⟩

theorem const_of_constantHead (run : constantHead w c = .ok head) : ∀ k ∈ head, ∃ v, k = const v w := by
  rcases constantHead_cases run with ⟨-, rfl⟩ | ⟨-, k, hk, rfl⟩
  · simp
  · obtain ⟨v, -, rfl⟩ := ofInt_cases hk
    simp

end constants

section terms

/-- An expression is a constant times one factor or several, or once itself. -/
theorem asMultiple_cases (run : asMultiple e = .ok (c, b)) :
    (∃ w, e = product [const c w, b]) ∨
      (∃ w fs, (∀ f, fs ≠ [f]) ∧ e = product (const c w :: fs) ∧ b = product fs) ∨
        (∀ v w fs, e ≠ product (const v w :: fs)) ∧ c = 1 ∧ b = e := by
  unfold asMultiple at run
  split at run
  · cases run
  · next w f =>
    cases run
    exact .inl ⟨w, rfl⟩
  · next w fs several =>
    cases run
    exact .inr (.inl ⟨w, fs, fun f alone => several f (by rw [alone]), rfl, rfl⟩)
  · next whole =>
    cases run
    exact .inr (.inr ⟨fun v w fs same => whole v w fs same, rfl, rfl⟩)

namespace Terms

/-- A term is added to the constant, filed under its loop, or counted for its base. -/
theorem insert_cases {t t' : Terms} (run : t.insert e = .ok t') :
    (∃ v w, e = const v w ∧ t' = { t with constant := t.constant + v }) ∨
      (∃ a b l, e = recurrence a b l ∧
        t' = { t with recurrences := addRecurrence l (a, b) t.recurrences }) ∨
          e.isConst = false ∧ e.isRecurrence = false ∧ ∃ c b, asMultiple e = .ok (c, b) ∧
            t' = { t with multiples := addMultiple b c t.multiples } := by
  have ofMultiple (run : (asMultiple e >>= fun part =>
      pure { t with multiples := addMultiple part.2 part.1 t.multiples }) = .ok t') :
      ∃ c b, asMultiple e = .ok (c, b) ∧ t' = { t with multiples := addMultiple b c t.multiples } := by
    obtain ⟨⟨c, b⟩, part, made⟩ := bind_eq_ok.mp run
    exact ⟨c, b, part, (Except.ok.inj made).symm⟩
  cases e with
  | const v w => exact .inl ⟨v, w, rfl, (Except.ok.inj run).symm⟩
  | recurrence a b l => exact .inr (.inl ⟨a, b, l, rfl, (Except.ok.inj run).symm⟩)
  | _ => exact .inr (.inr ⟨rfl, rfl, ofMultiple run⟩)

/-- What is kept by every term that is inserted holds of the terms of a list. -/
theorem ofList_induction {motive : List Expr → Terms → Prop} (nil : motive [] empty)
    (insert : ∀ es e t t', motive es t → Terms.insert t e = .ok t' → motive (es ++ [e]) t')
    {t : Terms} (run : ofList es = .ok t) : motive es t := by
  induction es using List.reverseRecOn generalizing t with
  | nil =>
    cases run
    exact nil
  | append_singleton es e ih =>
    simp only [ofList, List.foldlM_append, List.foldlM_cons, List.foldlM_nil] at run
    obtain ⟨u, hu, run⟩ := bind_eq_ok.mp run
    obtain ⟨t', step, made⟩ := bind_eq_ok.mp run
    cases made
    exact insert es e u t (ih hu) step

end Terms

/-- A base is left alone, dropped, or multiplied by its wrapped coefficient. -/
theorem scaleTerm_cases (run : scaleTerm mul w b c = .ok ts) :
    ∃ u, Word.signed c w = .ok u ∧ (u = 1 ∧ ts = [b] ∨ u = 0 ∧ ts = [] ∨
      u ≠ 1 ∧ u ≠ 0 ∧ ∃ e, mul [const u w, b] = .ok e ∧ ts = [e]) := by
  obtain ⟨u, hu, run⟩ := bind_eq_ok.mp run
  refine ⟨u, hu, ?_⟩
  split at run
  · next one => exact .inl ⟨one, (Except.ok.inj run).symm⟩
  next other =>
  split at run
  · next nought => exact .inr (.inl ⟨nought, (Except.ok.inj run).symm⟩)
  · next nonzero =>
    rw [ofInt_of_signed (signed_signed hu), ok_bind] at run
    obtain ⟨e, he, made⟩ := bind_eq_ok.mp run
    exact .inr (.inr ⟨other, nonzero, e, he, (Except.ok.inj made).symm⟩)

/-- The terms are what each base is scaled to, one after the other. -/
theorem scaleTerms_iff {ms : List (Expr × Int)} : scaleTerms mul w ms = .ok ts ↔
    ∃ parts, List.Forall₂ (fun p here => scaleTerm mul w p.1 p.2 = .ok here) ms parts ∧
      ts = parts.flatten := by
  induction ms generalizing ts with
  | nil => simp [scaleTerms, eq_comm]
  | cons p ms ih =>
    simp only [scaleTerms, bind_eq_ok, ih, List.forall₂_cons_left_iff, pure_eq_ok, Except.ok.injEq]
    constructor
    · rintro ⟨here, hhere, -, ⟨parts, each, rfl⟩, rfl⟩
      exact ⟨here :: parts, ⟨here, parts, hhere, each, rfl⟩, rfl⟩
    · rintro ⟨-, ⟨here, parts, hhere, each, rfl⟩, rfl⟩
      exact ⟨here, hhere, _, ⟨parts, each, rfl⟩, rfl⟩

private theorem scaleTerms_mem {ms : List (Expr × Int)} (run : scaleTerms mul w ms = .ok ts) :
    ∀ e ∈ ts, ∃ p ∈ ms, ∃ here, scaleTerm mul w p.1 p.2 = .ok here ∧ e ∈ here := by
  obtain ⟨parts, each, rfl⟩ := scaleTerms_iff.mp run
  intro e he
  obtain ⟨here, mem, he⟩ := List.mem_flatten.mp he
  obtain ⟨p, hp, hhere⟩ := exists_of_forall₂ each mem
  exact ⟨p, hp, here, hhere, he⟩

/-- What holds of the bases and of their multiples holds of the terms that they are scaled to. -/
theorem scaleTerms_all {P : Expr → Prop} {ms : List (Expr × Int)} (bases : ∀ p ∈ ms, P p.1)
    (scaled : ∀ p ∈ ms, ∀ u e, Word.signed u w = .ok u → mul [const u w, p.1] = .ok e → P e)
    (run : scaleTerms mul w ms = .ok ts) : ∀ e ∈ ts, P e := by
  intro e he
  obtain ⟨p, hp, here, hhere, he⟩ := scaleTerms_mem run e he
  obtain ⟨u, hu, ⟨-, rfl⟩ | ⟨-, rfl⟩ | ⟨-, -, f, made, rfl⟩⟩ := scaleTerm_cases hhere
  · exact List.mem_singleton.mp he ▸ bases p hp
  · cases he
  · exact List.mem_singleton.mp he ▸ scaled p hp u f (signed_signed hu) made

end terms

section sum

/-- One recurrence is kept, and several are added up start by start and step by step. -/
theorem mergeParts_cases {parts : List (Expr × Expr)} (run : mergeParts add l parts = .ok r) :
    (∃ a b, parts = [(a, b)] ∧ r = recurrence a b l) ∨
      (∀ p, parts ≠ [p]) ∧ ∃ start step, add (parts.map Prod.fst) = .ok start ∧
        add (parts.map Prod.snd) = .ok step ∧ r = recur start step l := by
  unfold mergeParts at run
  split at run
  · next a b => exact .inl ⟨a, b, rfl, (Except.ok.inj run).symm⟩
  · next several =>
    obtain ⟨start, hstart, run⟩ := bind_eq_ok.mp run
    obtain ⟨step, hstep, made⟩ := bind_eq_ok.mp run
    exact .inr ⟨fun p => several p.1 p.2, start, step, hstart, hstep, (Except.ok.inj made).symm⟩

theorem mergeAll_eq_mapM (gs : List (Loop × List (Expr × Expr))) :
    mergeAll add gs = gs.mapM fun g => do
      let e ← mergeParts add g.1 g.2
      return (g.1, e) := by
  induction gs with
  | nil => rfl
  | cons g gs ih =>
    rw [List.mapM_cons, ← ih, mergeAll]
    cases mergeParts add g.1 g.2 <;> rfl

/-- Each merged term is made of the parts filed under its loop. -/
theorem mergeAll_run {gs : List (Loop × List (Expr × Expr))} {merged : List (Loop × Expr)}
    (run : mergeAll add gs = .ok merged) :
    List.Forall₂ (fun g p => p.1 = g.1 ∧ mergeParts add g.1 g.2 = .ok p.2) gs merged := by
  rw [mergeAll_eq_mapM] at run
  refine (mapM_eq_ok_iff.mp run).imp fun g p here => ?_
  obtain ⟨e, he, made⟩ := bind_eq_ok.mp here
  cases made
  exact ⟨rfl, he⟩

theorem mergeAll_mem {gs : List (Loop × List (Expr × Expr))} {merged : List (Loop × Expr)}
    (run : mergeAll add gs = .ok merged) :
    (l, e) ∈ merged ↔ ∃ ps, (l, ps) ∈ gs ∧ mergeParts add l ps = .ok e := by
  have each := mergeAll_run run
  clear run
  induction each with
  | nil => simp
  | @cons g p gs merged here _ ih =>
    obtain ⟨m, ps⟩ := g
    obtain ⟨m', d⟩ := p
    obtain ⟨rfl, made⟩ := here
    simp only [List.mem_cons, ih, Prod.mk.injEq]
    grind

theorem mergeAll_keys {gs : List (Loop × List (Expr × Expr))} {merged : List (Loop × Expr)}
    (run : mergeAll add gs = .ok merged) : merged.map Prod.fst = gs.map Prod.fst := by
  have each := mergeAll_run run
  clear run
  induction each with
  | nil => rfl
  | cons here _ ih => rw [List.map_cons, List.map_cons, ih, here.1]

theorem collectLike_cases {t : Terms} {like : List Expr × List (Loop × Expr)}
    (run : collectLike add mul w t = .ok like) : ∃ c head scaled merged,
      Word.signed t.constant w = .ok c ∧ constantTerm w c = .ok head ∧
        scaleTerms mul w t.multiples = .ok scaled ∧ mergeAll add t.recurrences = .ok merged ∧
          like = (head ++ scaled, merged) := by
  obtain ⟨c, hc, run⟩ := bind_eq_ok.mp run
  obtain ⟨head, hhead, run⟩ := bind_eq_ok.mp run
  obtain ⟨scaled, hscaled, run⟩ := bind_eq_ok.mp run
  obtain ⟨merged, hmerged, made⟩ := bind_eq_ok.mp run
  exact ⟨c, head, scaled, merged, hc, hhead, hscaled, hmerged, (Except.ok.inj made).symm⟩

/-- A recurrence takes the terms into its start, and to another term they are added, if there are any. -/
theorem addInvariant_cases {moved : List Expr} (run : addInvariant add l moved e = .ok r) :
    (∃ a b m start, e = recurrence a b m ∧ add (a :: moved) = .ok start ∧ r = recur start b l) ∨
      e.isRecurrence = false ∧ (moved = [] ∧ r = e ∨ moved ≠ [] ∧ add (e :: moved) = .ok r) := by
  have other (run : (if moved.isEmpty then .ok e else add (e :: moved)) = .ok r) :
      moved = [] ∧ r = e ∨ moved ≠ [] ∧ add (e :: moved) = .ok r := by
    split at run
    · next none => exact .inl ⟨List.isEmpty_iff.mp none, (Except.ok.inj run).symm⟩
    · next some => exact .inr ⟨fun none => some (List.isEmpty_iff.mpr none), run⟩
  cases e with
  | recurrence a b m =>
    obtain ⟨start, hstart, made⟩ := bind_eq_ok.mp run
    exact .inl ⟨a, b, m, start, rfl, hstart, (Except.ok.inj made).symm⟩
  | _ => exact .inr ⟨rfl, other run⟩

/-- What does not change with the loop joins the term, and what does is sorted in beside it. -/
theorem foldInto_cases (run : foldInto add l e rest = .ok r) : ∃ front,
    addInvariant add l (rest.filter fun o => !o.dependsOn l) e = .ok front ∧
      ((rest.filter fun o => o.dependsOn l) = [] ∧ r = front ∨
        (rest.filter fun o => o.dependsOn l) ≠ [] ∧
          ordered .sum (front :: rest.filter fun o => o.dependsOn l) = .ok r) := by
  obtain ⟨front, hfront, run⟩ := bind_eq_ok.mp run
  refine ⟨front, hfront, ?_⟩
  split at run
  · next none => exact .inl ⟨List.isEmpty_iff.mp none, (Except.ok.inj run).symm⟩
  · next some => exact .inr ⟨fun none => some (List.isEmpty_iff.mpr none), run⟩

/-- Collected terms are none, only sorted, or folded into the one of the innermost loop. -/
theorem joinLike_cases {merged : List (Loop × Expr)} (run : joinLike add w rest merged = .ok r) :
    merged = [] ∧ (rest = [] ∧ zero w = .ok r ∨ rest ≠ [] ∧ ordered .sum rest = .ok r) ∨
      ∃ first more, merged = first :: more ∧ foldInto add (takeInnermost first more).1.1
        (takeInnermost first more).1.2 (rest ++ (takeInnermost first more).2) = .ok r := by
  cases merged with
  | nil =>
    simp only [joinLike] at run
    split at run
    · next none => exact .inl ⟨rfl, .inl ⟨List.isEmpty_iff.mp none, run⟩⟩
    · next some => exact .inl ⟨rfl, .inr ⟨fun none => some (List.isEmpty_iff.mpr none), run⟩⟩
  | cons first more => exact .inr ⟨first, more, rfl, run⟩

/-- A sum is not computable, as an operand is, or what its collected terms are joined to. -/
theorem sumStep_cases (run : sumStep add mul iw es = .ok r) :
    (uncomputable ∈ es ∧ r = uncomputable) ∨ ∃ w t like, commonWidth iw (flatten .sum es) = .ok w ∧
      Terms.ofList (flatten .sum es) = .ok t ∧ collectLike add mul w t = .ok like ∧
        joinLike add w like.1 like.2 = .ok r := by
  by_cases some : es.isEmpty = true
  · simp [sumStep, some, bind, Except.bind] at run
  by_cases computable : es.contains uncomputable = true
  · simp only [sumStep, some, computable, Bool.false_eq_true, if_false, if_true] at run
    cases run
    exact .inl ⟨by simpa using computable, rfl⟩
  simp only [sumStep, some, computable, Bool.false_eq_true, if_false] at run
  obtain ⟨w, hw, run⟩ := bind_eq_ok.mp run
  obtain ⟨t, ht, run⟩ := bind_eq_ok.mp run
  obtain ⟨like, hlike, run⟩ := bind_eq_ok.mp run
  exact .inr ⟨w, t, like, hw, ht, hlike, run⟩

end sum

section product

theorem distribute_eq_mapM (k : Expr) (es : List Expr) :
    distribute mul k es = es.mapM fun e => mul [k, e] := by
  induction es with
  | nil => rfl
  | cons e es ih => rw [List.mapM_cons, ← ih, distribute]

theorem distribute_mem {k : Expr} (run : distribute mul k es = .ok ts) :
    ∀ t ∈ ts, ∃ e ∈ es, mul [k, e] = .ok t := fun _ ht =>
  exists_of_forall₂ (mapM_eq_ok_iff.mp (distribute_eq_mapM k es ▸ run)) ht

theorem distribute_ne_nil {k : Expr} (some : es ≠ []) (run : distribute mul k es = .ok ts) : ts ≠ [] := by
  have length := (mapM_eq_ok_iff.mp (distribute_eq_mapM k es ▸ run)).length_eq
  exact fun none => some (List.length_eq_zero_iff.mp (by simpa [none] using length))

/-- The only recurrence among the factors is multiplied by the others, in its start and in its step. -/
theorem joinFactors_scaled (scaled : scalable? (head ++ others) = some (a, b, l))
    (run : joinFactors add mul head others = .ok r) : ∃ start step,
      mul ((head ++ others).filter (fun f => !f.isRecurrence) ++ [a]) = .ok start ∧
        mul ((head ++ others).filter (fun f => !f.isRecurrence) ++ [b]) = .ok step ∧
          r = recur start step l := by
  simp only [joinFactors, scaled] at run
  obtain ⟨start, hstart, run⟩ := bind_eq_ok.mp run
  obtain ⟨step, hstep, made⟩ := bind_eq_ok.mp run
  exact ⟨start, step, hstart, hstep, (Except.ok.inj made).symm⟩

/-- Factors that hold no recurrence to scale and are not a constant and a sum are only sorted. -/
theorem joinFactors_ordered (none : scalable? (head ++ others) = none)
    (other : ∀ k es, head = [k] → others = [sum es] → False) :
    joinFactors add mul head others = ordered .product (head ++ others) := by
  -- `other` is the side condition of the last branch of the match.
  simp [joinFactors, none]

/-- Factors without a recurrence to be scaled are a constant to be multiplied into a sum, or are sorted. -/
theorem joinFactors_cases (none : scalable? (head ++ others) = none)
    (run : joinFactors add mul head others = .ok r) :
    (∃ k es terms, head = [k] ∧ others = [sum es] ∧ distribute mul k es = .ok terms ∧ add terms = .ok r) ∨
      (∀ k es, head = [k] → others = [sum es] → False) ∧ ordered .product (head ++ others) = .ok r := by
  by_cases distributed : ∃ k es, head = [k] ∧ others = [sum es]
  · obtain ⟨k, es, rfl, rfl⟩ := distributed
    simp only [joinFactors, none] at run
    obtain ⟨terms, multiplied, run⟩ := bind_eq_ok.mp run
    exact .inl ⟨k, es, terms, rfl, rfl, multiplied, run⟩
  · have alone : ∀ k es, head = [k] → others = [sum es] → False :=
      fun k es first second => distributed ⟨k, es, first, second⟩
    rw [joinFactors_ordered none alone] at run
    exact .inr ⟨alone, run⟩

/-- A product is not computable, as an operand is, a constant, or what its factors are joined to. -/
theorem productStep_cases (run : productStep add mul iw es = .ok r) :
    (uncomputable ∈ es ∧ r = uncomputable) ∨ (∃ v w, (es = [] ∧ w = iw ∨
      commonWidth iw (flatten .product es) = .ok w) ∧ ofInt v w = .ok r) ∨ ∃ w c head,
      commonWidth iw (flatten .product es) = .ok w ∧
        constantFactor w 1 (flatten .product es) = .ok c ∧ c ≠ 0 ∧ constantHead w c = .ok head ∧
          ((flatten .product es).filter fun o => !o.isConst) ≠ [] ∧
            joinFactors add mul head ((flatten .product es).filter fun o => !o.isConst) = .ok r := by
  by_cases none : es.isEmpty = true
  · simp only [productStep, none, if_true] at run
    exact .inr (.inl ⟨1, iw, .inl ⟨List.isEmpty_iff.mp none, rfl⟩, run⟩)
  by_cases computable : es.contains uncomputable = true
  · simp only [productStep, none, computable, Bool.false_eq_true, if_false, if_true] at run
    cases run
    exact .inl ⟨by simpa using computable, rfl⟩
  simp only [productStep, none, computable, Bool.false_eq_true, if_false] at run
  obtain ⟨w, hw, run⟩ := bind_eq_ok.mp run
  obtain ⟨c, hc, run⟩ := bind_eq_ok.mp run
  split at run
  · exact .inr (.inl ⟨0, w, .inr hw, run⟩)
  next nonzero =>
  split at run
  · exact .inr (.inl ⟨c, w, .inr hw, run⟩)
  next filled =>
  obtain ⟨head, hhead, run⟩ := bind_eq_ok.mp run
  exact .inr (.inr ⟨w, c, head, hw, hc, nonzero, hhead, by simpa using filled, run⟩)

theorem negation_cases (run : negation iw e = .ok r) : ∃ w k, e.width = .ok w ∧
    ofInt (-1) (w.getD iw) = .ok k ∧ productOf iw [k, e] = .ok r := by
  obtain ⟨w, hw, run⟩ := bind_eq_ok.mp run
  obtain ⟨k, hk, run⟩ := bind_eq_ok.mp run
  exact ⟨w, k, hw, hk, run⟩

theorem negation_run (typed : HasBits e w) (run : negation iw e = .ok r) :
    ∃ k, ofInt (-1) w = .ok k ∧ productOf iw [k, e] = .ok r := by
  obtain ⟨v, k, hv, hk, run⟩ := negation_cases run
  cases hv.symm.trans typed.width
  exact ⟨k, hk, run⟩

end product

section maximum

/-- A maximum is not computable, or the operands that are no constants are sorted, with a constant that
stands for the others. -/
theorem maximum_cases {signed : Bool} {op : Nary}
    (kind : (if signed then Nary.signedMax else .unsignedMax) = op)
    (run : maximum signed iw es = .ok r) : r = uncomputable ∨
      ∃ top, (top = [] ∨ ∃ v w, top = [const v w]) ∧
        ordered op (distinctOthers (flatten op es) [] ++ top) = .ok r := by
  by_cases computable : es.contains uncomputable = true
  · simp only [maximum, computable, if_true] at run
    cases run
    exact .inl rfl
  simp only [maximum, computable, Bool.false_eq_true, if_false, kind] at run
  obtain ⟨w, -, run⟩ := bind_eq_ok.mp run
  obtain ⟨vs, -, run⟩ := bind_eq_ok.mp run
  right
  cases vs with
  | nil => exact ⟨[], .inl rfl, by simpa using run⟩
  | cons v vs =>
    obtain ⟨c, hc, run⟩ := bind_eq_ok.mp run
    obtain ⟨u, -, rfl⟩ := ofInt_cases hc
    exact ⟨_, .inr ⟨u, w, rfl⟩, run⟩

end maximum

section casts

/-- A quotient is not computable, as an operand is, a dividend over one, a constant, or itself. -/
theorem unsignedQuotient_cases (run : unsignedQuotient a b = .ok r) :
    ((a = uncomputable ∨ b = uncomputable) ∧ r = uncomputable) ∨ (b.isOne = true ∧ r = a) ∨
      (a.isConst = true ∧ b.isConst = true ∧ ∃ v w, ofInt v w = .ok r) ∨ r = quotient a b := by
  unfold unsignedQuotient at run
  split at run
  · next none => exact .inl ⟨by simpa using none, (Except.ok.inj run).symm⟩
  split at run
  · next one => exact .inr (.inl ⟨one, (Except.ok.inj run).symm⟩)
  split at run
  · next u w v w' _ =>
    split at run
    · exact .inr (.inr (.inr (Except.ok.inj run).symm))
    obtain ⟨n, -, run⟩ := bind_eq_ok.mp run
    obtain ⟨d, -, run⟩ := bind_eq_ok.mp run
    split at run
    · cases run
    · exact .inr (.inr (.inl ⟨rfl, rfl, _, _, run⟩))
  · exact .inr (.inr (.inr (Except.ok.inj run).symm))

/-- A conversion opens casts of its kind, and then leaves what it finds, wraps a constant anew, or puts a
cast around an expression that is no constant and no cast of this kind. -/
theorem convert_induction {P : Expr → Prop} {kind : CastKind} (start : P e)
    (number : ∀ v b u r, P (const v b) → ofInt u w = .ok r → P r)
    (opened : ∀ a b, P (cast kind a b) → P a)
    (around : ∀ a, P a → a.isConst = false → (∀ a' b, a ≠ cast kind a' b) →
      convert kind w a = .ok (cast kind a w) → P (cast kind a w)) (run : convert kind w e = .ok r) : P r := by
  fun_induction convert kind w e with
  | case1 | case2 | case4 =>
    cases run
    exact start
  | case3 v b other =>
    obtain ⟨-, -, run⟩ := bind_eq_ok.mp run
    split at run
    · obtain ⟨u, -, run⟩ := bind_eq_ok.mp run
      exact number v b u r start run
    · exact number v b v r start run
  | case5 kind' arg b other ih =>
    have made := run
    obtain ⟨-, -, run⟩ := bind_eq_ok.mp run
    split at run
    · next same => exact ih (opened arg b (same ▸ start)) run
    · next apart =>
      cases run
      refine around _ start rfl (fun a' b' same => ?_) ?_
      · cases same
        exact apart rfl
      · simpa [convert, other] using made
  | case6 e noUncomputable noConst noCast =>
    have made := run
    obtain ⟨v, -, run⟩ := bind_eq_ok.mp run
    split at run
    · cases run
      exact start
    · obtain ⟨-, -, run⟩ := bind_eq_ok.mp run
      cases run
      cases e with
      | const v b => exact absurd rfl (noConst v b)
      | cast k a b => exact absurd rfl (noCast k a b)
      | uncomputable => exact absurd rfl noUncomputable
      | _ => exact around _ start rfl (fun a' b => noCast kind a' b) made

end casts

end ShapeRecovery.Expr
