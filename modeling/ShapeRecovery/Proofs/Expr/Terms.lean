import ShapeRecovery.Expr.Algebra
import ShapeRecovery.Proofs.Expr.Value

namespace ShapeRecovery.Expr

/-- The recurrences that a group of parts stands for. -/
def groupTerms (g : Loop × List (Expr × Expr)) : List Expr :=
  g.2.map fun p => recurrence p.1 p.2 g.1

/-- An expression that is neither a constant nor a recurrence is a multiple of a term. -/
private theorem asMultiple_spec {e : Expr} {w : Int} (typed : HasBits e w) (still : e.isConst = false)
    (notMoving : ∀ a b l, e ≠ recurrence a b l) :
    ∃ c b, asMultiple e = .ok (c, b) ∧ HasBits b w ∧ weight b ≤ weight e ∧
      (∀ A L, BuiltOver A L e → BuiltOver A L b) ∧ ∀ ρ, value w ρ e = c * value w ρ b := by
  have whole (h : asMultiple e = .ok (1, e)) : ∃ c b, asMultiple e = .ok (c, b) ∧ HasBits b w ∧
      weight b ≤ weight e ∧ (∀ A L, BuiltOver A L e → BuiltOver A L b) ∧
      ∀ ρ, value w ρ e = c * value w ρ b :=
    ⟨1, e, h, typed, le_rfl, fun _ _ k => k, fun ρ => by simp⟩
  cases e with
  | const v b => simp [isConst] at still
  | recurrence a b l => exact absurd rfl (notMoving a b l)
  | nary op es =>
    cases op with
    | product =>
      obtain ⟨several, parts⟩ := HasBits.nary_iff.mp typed
      match es, several, parts with
      | [.const v b, f], several, parts =>
        refine ⟨v, f, rfl, parts f (by simp), ?_, ?_, fun ρ => by simp⟩
        · simp [weightProduct, weight]
        · intro A L within
          exact BuiltOver.product_iff.mp within f (by simp)
      | .const v b :: f :: g :: rest, several, parts =>
        refine ⟨v, product (f :: g :: rest), rfl, ?_, ?_, ?_, fun ρ => by simp⟩
        · exact .nary (by simp) fun e he => parts e (List.mem_cons_of_mem _ he)
        · rw [weight_product several, weight_product (by simp)]
          simp [weightProduct, weight]
        · intro A L within
          exact .product fun e he => BuiltOver.product_iff.mp within e (List.mem_cons_of_mem _ he)
      | .unknown .. :: _, _, _ | .nary .. :: _, _, _ | .quotient .. :: _, _, _ | .cast .. :: _, _, _
      | .recurrence .. :: _, _, _ | .uncomputable :: _, _, _ => exact whole rfl
    | _ => exact whole rfl
  | _ => exact whole rfl

namespace Terms

/-- A term with its coefficient, which may lie outside the range of a constant. -/
def multiple (w : Int) (p : Expr × Int) : Expr := product [const p.2 w, p.1]

def constantTerms (w c : Int) : List Expr := if c = 0 then [] else [const c w]

/-- The terms that the kinds stand for. -/
def all (w : Int) (t : Terms) : List Expr :=
  constantTerms w t.constant ++ (t.multiples.map (multiple w) ++ t.recurrences.flatMap groupTerms)

@[simp] theorem weight_multiple (w : Int) (p : Expr × Int) : weight (multiple w p) = weight p.1 := by
  rw [multiple, weight_product (by simp)]
  simp [weightProduct, weight]

@[simp] theorem value_multiple (w : Int) (ρ : Valuation) (p : Expr × Int) :
    value w ρ (multiple w p) = p.2 * value w ρ p.1 := by
  simp [multiple]

theorem builtOver_multiple {A : Expr → Prop} {L : Loop → Prop} {w : Int} {p : Expr × Int} :
    BuiltOver A L (multiple w p) ↔ BuiltOver A L p.1 := by
  rw [multiple, BuiltOver.product_iff]
  simp [BuiltOver.const]

private theorem builtOver_constantTerms {A : Expr → Prop} {L : Loop → Prop} {w c : Int} :
    ∀ e ∈ constantTerms w c, BuiltOver A L e := by
  unfold constantTerms
  split <;> simp [BuiltOver.const]

theorem weightSum_constantTerms (w c : Int) :
    weightSum (constantTerms w c) = if c = 0 then 0 else 1 := by
  unfold constantTerms
  split <;> simp [weightSum, weight]

theorem sum_constantTerms (w c : Int) (ρ : Valuation) :
    ((constantTerms w c).map (value w ρ)).sum = (c : ZMod (Word.modulus w)) := by
  unfold constantTerms
  split <;> simp_all

/-- The terms of a sum of `w` bits hold what its operands `es` held. -/
structure Collects (w : Int) (es : List Expr) (t : Terms) : Prop where
  bases : ∀ p ∈ t.multiples, HasBits p.1 w ∧ ∃ e ∈ es, weight p.1 ≤ weight e
  groups : AllBits (t.recurrences.flatMap groupTerms) w
  weight_le : weightSum (t.all w) ≤ weightSum es
  distinct : (t.recurrences.map Prod.fst).Nodup
  filled : ∀ g ∈ t.recurrences, g.2 ≠ []
  built : ∀ (A : Expr → Prop) (L : Loop → Prop),
    (∀ e ∈ es, BuiltOver A L e) → ∀ e ∈ t.all w, BuiltOver A L e
  total : ∀ ρ, ((t.all w).map (value w ρ)).sum = (es.map (value w ρ)).sum

/-- What can stand for the terms can stand for the operands. -/
theorem Collects.same {w : Int} {es fs : List Expr} {t : Terms} {g : Gap} (h : Collects w es t)
    (k : Same .sum w g (t.all w) fs) : Same .sum w g es fs where
  typed := k.typed
  weight_le := k.weight_le.trans h.weight_le
  built A L within := k.built A L (h.built A L within)
  total ρ := by rw [k.total ρ, value_sum, value_sum, h.total ρ]
  noGap L ρ within := k.noGap L ρ (h.built _ L within)

theorem addMultiple_mem {e : Expr} {c : Int} {ms : List (Expr × Int)} {p : Expr × Int}
    (h : p ∈ addMultiple e c ms) : p.1 = e ∨ ∃ q ∈ ms, q.1 = p.1 := by
  induction ms with
  | nil => simp_all [addMultiple]
  | cons q ms ih =>
    unfold addMultiple at h
    split at h
    · next same =>
      rcases List.mem_cons.mp h with rfl | h
      · exact .inl same
      · exact .inr ⟨p, by simp [h], rfl⟩
    · rcases List.mem_cons.mp h with rfl | h
      · exact .inr ⟨_, by simp, rfl⟩
      · rcases ih h with h | ⟨q', hq, he⟩
        · exact .inl h
        · exact .inr ⟨q', by simp [hq], he⟩

theorem weightSum_addMultiple (w : Int) (e : Expr) (c : Int) (ms : List (Expr × Int)) :
    weightSum ((addMultiple e c ms).map (multiple w)) ≤
      weight e + weightSum (ms.map (multiple w)) := by
  induction ms with
  | nil => simp [addMultiple, weightSum]
  | cons q ms ih =>
    unfold addMultiple
    split <;> simp only [List.map_cons, weightSum, weight_multiple] <;> omega

private theorem sum_addMultiple (w : Int) (ρ : Valuation) (e : Expr) (c : Int) (ms : List (Expr × Int)) :
    (((addMultiple e c ms).map (multiple w)).map (value w ρ)).sum =
      c * value w ρ e + ((ms.map (multiple w)).map (value w ρ)).sum := by
  induction ms with
  | nil => simp [addMultiple]
  | cons q ms ih =>
    unfold addMultiple
    split
    · next same =>
      simp only [List.map_cons, List.sum_cons, value_multiple, ← same]
      push_cast
      ring
    · simp only [List.map_cons, List.sum_cons, ih]
      ring

/-- Filing a recurrence adds it to those that are there. -/
theorem addRecurrence_perm (l : Loop) (p : Expr × Expr) (gs : List (Loop × List (Expr × Expr))) :
    ((addRecurrence l p gs).flatMap groupTerms).Perm
      (recurrence p.1 p.2 l :: gs.flatMap groupTerms) := by
  induction gs with
  | nil => simp [addRecurrence, groupTerms]
  | cons g gs ih =>
    obtain ⟨l', ps⟩ := g
    unfold addRecurrence
    split
    · next same =>
      subst same
      simp only [List.flatMap_cons, groupTerms, List.map_append, List.map_cons, List.map_nil]
      rw [List.append_assoc]
      exact List.perm_middle
    · simp only [List.flatMap_cons]
      exact (ih.append_left _).trans List.perm_middle

private theorem addRecurrence_keys (l : Loop) (p : Expr × Expr) (gs : List (Loop × List (Expr × Expr))) :
    (addRecurrence l p gs).map Prod.fst =
      if l ∈ gs.map Prod.fst then gs.map Prod.fst else gs.map Prod.fst ++ [l] := by
  induction gs with
  | nil => simp [addRecurrence]
  | cons g gs ih =>
    unfold addRecurrence
    split
    · next same => simp [same]
    · next other =>
      have other' : ¬ l = g.1 := fun h => other h.symm
      simp only [List.map_cons, ih, List.mem_cons, other', false_or]
      split <;> simp

theorem addRecurrence_nodup {l : Loop} {p : Expr × Expr} {gs : List (Loop × List (Expr × Expr))}
    (h : (gs.map Prod.fst).Nodup) : ((addRecurrence l p gs).map Prod.fst).Nodup := by
  rw [addRecurrence_keys]
  split
  · exact h
  · next fresh => exact h.append (by simp) (by simpa using fresh)

theorem addRecurrence_filled {l : Loop} {p : Expr × Expr} {gs : List (Loop × List (Expr × Expr))}
    (h : ∀ g ∈ gs, g.2 ≠ []) : ∀ g ∈ addRecurrence l p gs, g.2 ≠ [] := by
  induction gs with
  | nil => simp [addRecurrence]
  | cons g gs ih =>
    unfold addRecurrence
    have rest := ih fun q hq => h q (by simp [hq])
    split
    · intro q hq
      rcases List.mem_cons.mp hq with rfl | hq
      · simp
      · exact h q (by simp [hq])
    · intro q hq
      rcases List.mem_cons.mp hq with rfl | hq
      · exact h _ (by simp)
      · exact rest q hq

private theorem collects_empty (w : Int) : Collects w [] empty where
  bases := by simp [empty]
  groups := by simp [empty]
  weight_le := by simp [all, empty, constantTerms, weightSum]
  distinct := by simp [empty]
  filled := by simp [empty]
  built := by simp [all, empty, constantTerms]
  total := by simp [all, empty, constantTerms]

section insert

variable {w : Int} {es : List Expr} {t : Terms}

theorem Collects.bases_append (h : Collects w es t) (e : Expr) :
    ∀ p ∈ t.multiples, HasBits p.1 w ∧ ∃ f ∈ es ++ [e], weight p.1 ≤ weight f := by
  intro p hp
  obtain ⟨typed, f, hf, le⟩ := h.bases p hp
  exact ⟨typed, f, by simp [hf], le⟩

theorem Collects.insert_const (h : Collects w es t) (v b : Int) :
    Collects w (es ++ [const v b]) { t with constant := t.constant + v } where
  bases := h.bases_append _
  groups := h.groups
  weight_le := by
    have old := h.weight_le
    simp only [all, weightSum_append, weightSum_constantTerms, weightSum, weight] at old ⊢
    split <;> omega
  distinct := h.distinct
  filled := h.filled
  built A L within e he := by
    have old := h.built A L fun f hf => within f (by simp [hf])
    rcases List.mem_append.mp he with he | he
    · exact builtOver_constantTerms e he
    · exact old e (List.mem_append_right _ he)
  total ρ := by
    have old := h.total ρ
    simp only [all, List.map_append, List.sum_append, sum_constantTerms] at old ⊢
    simp only [List.map_cons, List.map_nil, List.sum_cons, List.sum_nil, value_const]
    push_cast
    linear_combination old

theorem Collects.insert_recurrence (h : Collects w es t) {a b : Expr} {l : Loop}
    (typed : HasBits (.recurrence a b l) w) :
    Collects w (es ++ [.recurrence a b l])
      { t with recurrences := addRecurrence l (a, b) t.recurrences } := by
  have perm := addRecurrence_perm l (a, b) t.recurrences
  have moved : (all w { t with recurrences := addRecurrence l (a, b) t.recurrences }).Perm
      (.recurrence a b l :: t.all w) :=
    ((perm.append_left _).trans List.perm_middle).append_left _ |>.trans List.perm_middle
  exact {
    bases := h.bases_append _
    groups := (AllBits.cons.mpr ⟨typed, h.groups⟩).perm perm.symm
    weight_le := by
      have old := h.weight_le
      rw [weightSum_perm moved]
      simp only [weightSum_append, weightSum] at old ⊢
      omega
    distinct := addRecurrence_nodup h.distinct
    filled := addRecurrence_filled h.filled
    built A L within e he := by
      rcases List.mem_cons.mp (moved.mem_iff.mp he) with rfl | he
      · exact within _ (by simp)
      · exact h.built A L (fun f hf => within f (by simp [hf])) e he
    total ρ := by
      have old := h.total ρ
      rw [(moved.map (value w ρ)).sum_eq]
      simp only [List.map_append, List.sum_append, List.map_cons, List.map_nil, List.sum_cons,
        List.sum_nil]
      linear_combination old }

theorem Collects.insert_multiple (h : Collects w es t) {e b : Expr} {c : Int}
    (typed : HasBits b w) (light : weight b ≤ weight e)
    (built : ∀ A L, BuiltOver A L e → BuiltOver A L b)
    (eq : ∀ ρ, value w ρ e = c * value w ρ b) :
    Collects w (es ++ [e]) { t with multiples := addMultiple b c t.multiples } where
  bases p hp := by
    rcases addMultiple_mem hp with heq | ⟨q, hq, heq⟩
    · exact heq ▸ ⟨typed, e, by simp, light⟩
    · exact heq ▸ h.bases_append e q hq
  groups := h.groups
  weight_le := by
    have old := h.weight_le
    have new := weightSum_addMultiple w b c t.multiples
    simp only [all, weightSum_append, weightSum] at old ⊢
    omega
  distinct := h.distinct
  filled := h.filled
  built A L within f hf := by
    have old := h.built A L fun d hd => within d (by simp [hd])
    rcases List.mem_append.mp hf with hf | hf
    · exact old f (List.mem_append_left _ hf)
    rcases List.mem_append.mp hf with hf | hf
    · obtain ⟨p, hp, rfl⟩ := List.mem_map.mp hf
      refine builtOver_multiple.mpr ?_
      rcases addMultiple_mem hp with heq | ⟨q, hq, heq⟩
      · exact heq ▸ built A L (within e (by simp))
      · have found : multiple w q ∈ t.all w :=
          List.mem_append_right _ (List.mem_append_left _ (List.mem_map_of_mem hq))
        exact heq ▸ builtOver_multiple.mp (old _ found)
    · exact old f (List.mem_append_right _ (List.mem_append_right _ hf))
  total ρ := by
    have old := h.total ρ
    simp only [all, List.map_append, List.sum_append, sum_addMultiple] at old ⊢
    simp only [List.map_cons, List.map_nil, List.sum_cons, List.sum_nil, eq ρ]
    linear_combination old

end insert

/-- One operand more is collected whatever its kind. -/
private theorem insert_collects {w : Int} {es : List Expr} {t : Terms} {e : Expr} (h : Collects w es t)
    (typed : HasBits e w) : ∃ t', insert t e = .ok t' ∧ Collects w (es ++ [e]) t' := by
  have ofMultiple (still : e.isConst = false) (notMoving : ∀ a b l, e ≠ recurrence a b l)
      (step : insert t e = asMultiple e >>= fun part =>
        pure { t with multiples := addMultiple part.2 part.1 t.multiples }) :
      ∃ t', insert t e = .ok t' ∧ Collects w (es ++ [e]) t' := by
    obtain ⟨c, b, hm, hb, light, built, eq⟩ := asMultiple_spec typed still notMoving
    exact ⟨_, by rw [step, hm]; rfl, h.insert_multiple hb light built eq⟩
  cases e with
  | const v b => exact ⟨_, rfl, h.insert_const v b⟩
  | recurrence a b l => exact ⟨_, rfl, h.insert_recurrence typed⟩
  | uncomputable => exact absurd rfl typed.ne_uncomputable
  | _ => exact ofMultiple rfl (by simp) rfl

theorem ofList_collects {w : Int} {es : List Expr} (typed : AllBits es w) :
    ∃ t, ofList es = .ok t ∧ Collects w es t := by
  have run : ∀ (fs done : List Expr) (t : Terms), AllBits fs w → Collects w done t →
      ∃ t', fs.foldlM insert t = .ok t' ∧ Collects w (done ++ fs) t' := by
    intro fs
    induction fs with
    | nil => exact fun done t _ h => ⟨t, rfl, by simpa using h⟩
    | cons f fs ih =>
      intro done t typed h
      obtain ⟨hf, hfs⟩ := AllBits.cons.mp typed
      obtain ⟨t₁, step, h₁⟩ := insert_collects h hf
      obtain ⟨t₂, rest, h₂⟩ := ih _ t₁ hfs h₁
      exact ⟨t₂, by simp only [List.foldlM_cons, step, ok_bind, rest], by simpa using h₂⟩
  exact run es [] empty typed (collects_empty w)

end Terms

end ShapeRecovery.Expr
