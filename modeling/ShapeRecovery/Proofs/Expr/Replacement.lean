import ShapeRecovery.Proofs.Expr.Substitution

namespace ShapeRecovery.Expr

mutual

/-- What stands for `e` once its subexpressions are replaced: the replacements count for what they
replace, and the sums and products that are made anew for what they confuse. -/
def meaningAfter (iw : Int) (env : Expr → Option Expr) (ρ : Valuation) (e : Expr) : Int :=
  match env e with
  | some r => r.meaning ρ
  | none =>
    match e with
    | nary .sum es =>
      (meaningsAfter iw env ρ es).sum + gapAfter (substituteList iw env es) (sumGap iw) ρ
    | nary .product es =>
      (meaningsAfter iw env ρ es).prod + gapAfter (substituteList iw env es) (productGap iw) ρ
    | nary .signedMax es =>
      greatestOf ((meaningsAfter iw env ρ es).map (readAs true (bits (nary .signedMax es))))
    | nary .unsignedMax es =>
      greatestOf ((meaningsAfter iw env ρ es).map (readAs false (bits (nary .unsignedMax es))))
    | quotient a b => quotientOf ρ (bits a) (meaningAfter iw env ρ a) (meaningAfter iw env ρ b)
    | cast kind a _ => castOf kind (bits a) (meaningAfter iw env ρ a)
    | recurrence a b l => meaningAfter iw env ρ a + meaningAfter iw env ρ b * ρ.count l
    | const .. | unknown .. | uncomputable => e.meaning ρ

def meaningsAfter (iw : Int) (env : Expr → Option Expr) (ρ : Valuation) : List Expr → List Int
  | [] => []
  | e :: es => meaningAfter iw env ρ e :: meaningsAfter iw env ρ es

end

variable {iw w : Int} {env : Expr → Option Expr} {e r : Expr} {es fs : List Expr}

private theorem meaningsAfter_eq_map (ρ : Valuation) (es : List Expr) :
    meaningsAfter iw env ρ es = es.map (meaningAfter iw env ρ) := by
  induction es with
  | nil => rfl
  | cons e es ih => rw [meaningsAfter, ih, List.map_cons]

private theorem meaningAfter_replaced (known : env e = some r) (ρ : Valuation) :
    meaningAfter iw env ρ e = r.meaning ρ := by
  unfold meaningAfter
  rw [known]

private theorem meaningAfter_fresh_unknown {s : Symbol} {b : Int} (fresh : env (unknown s b) = none)
    (ρ : Valuation) : meaningAfter iw env ρ (unknown s b) = ρ.unknown s b := by
  simp only [meaningAfter, fresh, meaning]

/-- `r` has `w` bits and stands for what `e` means after the replacements. -/
structure Renders (iw w : Int) (env : Expr → Option Expr) (e r : Expr) : Prop where
  typed : HasBits r w
  value_eq : ∀ ρ, value w ρ r = (meaningAfter iw env ρ e : ZMod (Word.modulus w))

theorem Renders.read (renders : Renders iw w env e r) (signed : Bool) (ρ : Valuation) :
    readAs signed w (r.meaning ρ) = readAs signed w (meaningAfter iw env ρ e) := by
  have same : value w ρ r = value w ρ (const (meaningAfter iw env ρ e) w) := by
    rw [renders.value_eq, value_const]
  simpa only [meaning] using readAs_congr signed same

/-- What operands stand for, one by one. -/
theorem map_renders {β : Type} {f : Expr → β} {g : Int → β} {ρ : Valuation}
    (each : List.Forall₂ (Renders iw w env) es fs)
    (same : ∀ e r, Renders iw w env e r → f r = g (meaningAfter iw env ρ e)) :
    fs.map f = (meaningsAfter iw env ρ es).map g := by
  rw [meaningsAfter_eq_map]
  induction each with
  | nil => rfl
  | cons here _ ih => simp only [List.map_cons, same _ _ here, ih]

/-- A node that is made anew over rendered operands renders the node. -/
private theorem withOperands_renders (op : Nary) (old : List Expr) (fresh : env (nary op es) = none)
    (width : bits (nary op es) = w) (list : substituteList iw env es = .ok fs)
    (each : List.Forall₂ (Renders iw w env) es fs) (some : fs ≠ []) :
    ∃ r, withOperands iw (nary op old) fs = .ok r ∧ Renders iw w env (nary op es) r := by
  have typed : AllBits fs w := fun f hf => by
    obtain ⟨e, -, renders⟩ := exists_of_forall₂ each hf
    exact renders.typed
  have values (ρ : Valuation) : fs.map (value w ρ) =
      (meaningsAfter iw env ρ es).map (Int.castRingHom (ZMod (Word.modulus w))) :=
    map_renders each fun e r renders => renders.value_eq ρ
  have ops := typed.operands
  have maxima (signed : Bool) :
      ∃ r, maximum signed iw fs = .ok r ∧ HasBits r w ∧ ∀ ρ, value w ρ r =
        (greatestOf ((meaningsAfter iw env ρ es).map (readAs signed w)) : Int) := by
    obtain ⟨r, run, stands⟩ := maximum_yields signed default iw ops some
    refine ⟨r, run, stands.typed, fun ρ => ?_⟩
    obtain ⟨r', run', stands'⟩ := maximum_yields signed ρ iw ops some
    cases run.symm.trans run'
    rw [stands'.value_eq, map_renders each fun e r renders => renders.read signed ρ]
  cases op with
  | sum =>
    obtain ⟨r, run, same⟩ := sumOf_spec iw some typed
    refine ⟨r, run, same.hasBits, fun ρ => ?_⟩
    simp only [meaningAfter, fresh, list, gapAfter_ok]
    rw [same.value_single ρ, values ρ, Int.cast_add, ← map_list_sum, Int.coe_castRingHom]
  | product =>
    obtain ⟨r, run, same⟩ := productOf_spec iw some typed
    refine ⟨r, run, same.hasBits, fun ρ => ?_⟩
    simp only [meaningAfter, fresh, list, gapAfter_ok]
    rw [same.value_single_product ρ, values ρ, Int.cast_add, ← map_list_prod, Int.coe_castRingHom]
  | signedMax =>
    obtain ⟨r, run, bits, total⟩ := maxima true
    refine ⟨r, run, bits, fun ρ => ?_⟩
    simp only [meaningAfter, fresh, width, total]
  | unsignedMax =>
    obtain ⟨r, run, bits, total⟩ := maxima false
    refine ⟨r, run, bits, fun ρ => ?_⟩
    simp only [meaningAfter, fresh, width, total]

/-- Replacing subexpressions by ones of their width ends, and the result stands for what the expression
means after that. -/
theorem substitute_renders (iw : Int) (keeps : ∀ e r v, env e = some r → HasBits e v → HasBits r v)
    (typed : HasBits e w) : ∃ r, substitute iw env e = .ok r ∧ Renders iw w env e r := by
  have replaced {e : Expr} {w : Int} (typed : HasBits e w) (r : Expr) (known : env e = some r) :
      Renders iw w env e r :=
    ⟨keeps e r w known typed, fun ρ => by rw [meaningAfter_replaced known, value]⟩
  induction typed using HasBits.cast_induction with
  | const pos inRange =>
    apply substitute_cases (replaced (.const pos inRange))
    intro fresh
    exact ⟨_, by simp only [substitute, fresh], .const pos inRange,
      fun ρ => by simp only [meaningAfter, fresh, value]⟩
  | @unknown s w pos =>
    apply substitute_cases (replaced (.unknown pos))
    intro fresh
    exact ⟨.unknown s w, by simp only [substitute, fresh], .unknown pos,
      fun ρ => by rw [meaningAfter_fresh_unknown fresh, value, meaning]⟩
  | @nary op es w several parts ih =>
    have typed : HasBits (.nary op es) w := .nary several parts
    apply substitute_cases (replaced typed)
    intro fresh
    obtain ⟨fs, hfs, each⟩ := mapM_related ih
    have list : substituteList iw env es = .ok fs := by rw [substituteList_eq_mapM, hfs]
    have length := each.length_eq
    have some : fs ≠ [] := List.ne_nil_of_length_pos (by omega)
    obtain ⟨r, run, renders⟩ := withOperands_renders op fs fresh typed.bits list each some
    refine ⟨r, ?_, renders⟩
    cases es with
    | nil => simp at several
    | cons e es => simp only [substitute, fresh, list, ok_bind, run]
  | @quotient a b w lhs rhs first second =>
    apply substitute_cases (replaced (.quotient lhs rhs))
    intro fresh
    obtain ⟨a', ha, first⟩ := first
    obtain ⟨b', hb, second⟩ := second
    obtain ⟨r, run, bits⟩ := unsignedQuotient_typed first.typed second.typed
    refine ⟨r, by simp only [substitute, fresh, ha, hb, ok_bind, withOperands_quotient, run], bits,
      fun ρ => ?_⟩
    obtain ⟨r', run', stands⟩ := unsignedQuotient_yields ρ first.typed second.typed
      (within_any a') (within_any b')
    cases run.symm.trans run'
    have num := first.read false ρ
    have den := second.read false ρ
    simp only [readAs, Bool.false_eq_true, if_false] at num den
    simp only [stands.value_eq, meaningAfter, fresh, lhs.bits, quotientOf, num, den]
  | @cast kind a v w arg admits other ih =>
    apply substitute_cases (replaced (hasBits_cast arg admits other))
    intro fresh
    obtain ⟨a', ha, inner⟩ := ih
    obtain ⟨r, run, bits⟩ := convert_typed inner.typed admits
    refine ⟨r, by simp only [substitute, fresh, ha, ok_bind, withOperands_cast, run], bits, fun ρ => ?_⟩
    obtain ⟨r', run', stands⟩ := convert_yields ρ inner.typed (within_any a') admits
    cases run.symm.trans run'
    have same : value v ρ a' = value v ρ (const (meaningAfter iw env ρ a) v) := by
      rw [inner.value_eq, value_const]
    simpa only [stands.value_eq, meaningAfter, fresh, arg.bits, meaning] using castOf_congr admits same
  | @recurrence a b l w start step first second =>
    apply substitute_cases (replaced (.recurrence start step))
    intro fresh
    obtain ⟨a', ha, first⟩ := first
    obtain ⟨b', hb, second⟩ := second
    refine ⟨recur a' b' l, by simp only [substitute, fresh, ha, hb, ok_bind, withOperands_recurrence],
      hasBits_recur l first.typed second.typed, fun ρ => ?_⟩
    rw [value_recur l first.typed second.typed, first.value_eq, second.value_eq]
    simp only [meaningAfter, fresh, Int.cast_add, Int.cast_mul]

/-- Where loops are in step nothing is confused: what is meant is the value of the expression, with the
replacements' values in the places of the unknowns that they replace. -/
theorem meaningAfter_of_inStep (iw : Int) {L : Loop → Prop} {ρ ρ' : Valuation} (inStep : InStep L ρ)
    (keeps : ∀ e r v, env e = some r → HasBits e v → HasBits r v)
    (reads : Interprets L ρ ρ' env) (typed : HasBits e w) (within : Within L e) :
    (meaningAfter iw env ρ e : ZMod (Word.modulus w)) = value w ρ' e := by
  obtain ⟨r, run, renders⟩ := substitute_renders iw keeps typed
  obtain ⟨r', run', stands⟩ := substitute_yields iw inStep reads typed within
  cases run.symm.trans run'
  rw [← renders.value_eq, stands.value_eq]

end ShapeRecovery.Expr
