import ShapeRecovery.Expr.Substitution
import ShapeRecovery.Proofs.Expr.Constructors

namespace ShapeRecovery.Expr

variable {w : Int}

section width

instance : Inhabited Valuation := ⟨⟨fun _ _ => 0, fun _ => 0, fun _ _ => 0⟩⟩

theorem within_any (e : Expr) : Within (fun _ => True) e := fun _ _ => trivial

theorem Yields.typed {L : Loop → Prop} {ρ : Valuation} {run : Except Fault Expr}
    {v : ZMod (Word.modulus w)} (h : Yields L ρ w run v) : ∃ r, run = .ok r ∧ HasBits r w :=
  h.imp fun _ h => ⟨h.1, h.2.typed⟩

theorem AllBits.operands {es : List Expr} (typed : AllBits es w) :
    Operands (fun _ => True) w es :=
  fun e he => ⟨typed e he, within_any e⟩

theorem unsignedQuotient_typed {a b : Expr} (ha : HasBits a w) (hb : HasBits b w) :
    ∃ r, unsignedQuotient a b = .ok r ∧ HasBits r w :=
  (unsignedQuotient_yields default ha hb (within_any a) (within_any b)).typed

theorem convert_typed {kind : CastKind} {e : Expr} {v b : Int} (typed : HasBits e v)
    (admits : Admits kind v b) : ∃ r, convert kind b e = .ok r ∧ HasBits r b :=
  (convert_yields default typed (within_any e) admits).typed

theorem resize_typed {e : Expr} {v : Int} (pos : 0 < w) (typed : HasBits e v) :
    ∃ r, resize w e = .ok r ∧ HasBits r w := by
  simp only [resize, typed.width, ok_bind]
  split
  · next same => exact ⟨e, rfl, same ▸ typed⟩
  · split
    · next narrower => exact convert_typed typed ⟨pos, by omega⟩
    · next wider => exact convert_typed typed (show Admits .zeroExtend v w from not_lt.mp wider)

end width

section withOperands

variable (iw : Int) (a b f g : Expr)

theorem withOperands_quotient : withOperands iw (quotient a b) [f, g] = unsignedQuotient f g := rfl

theorem withOperands_cast (kind : CastKind) :
    withOperands iw (cast kind a w) [f] = convert kind w f := rfl

theorem withOperands_recurrence (l : Loop) :
    withOperands iw (recurrence a b l) [f, g] = .ok (recur f g l) := rfl

end withOperands

theorem withOperands_nary_yields {L : Loop → Prop} {ρ : Valuation} (iw : Int)
    (inStep : InStep L ρ) (op : Nary) (es : List Expr)
    {fs : List Expr} (ops : Operands L w fs) (some : fs ≠ []) :
    Yields L ρ w (withOperands iw (nary op es) fs) (value w ρ (nary op fs)) := by
  cases op with
  | sum => exact value_sum w ρ fs ▸ sumOf_yields iw inStep ops some
  | product => exact value_product w ρ fs ▸ productOf_yields iw inStep ops some
  | signedMax =>
    have top : (nary .signedMax fs).meaning ρ = _ := meaning_maximum true ρ ops.typed some
    rw [value, top]
    exact maximum_yields true ρ iw ops some
  | unsignedMax =>
    have top : (nary .unsignedMax fs).meaning ρ = _ := meaning_maximum false ρ ops.typed some
    rw [value, top]
    exact maximum_yields false ρ iw ops some

theorem withOperands_nary_typed (iw : Int) (op : Nary) (es : List Expr) {fs : List Expr}
    (typed : AllBits fs w) (some : fs ≠ []) :
    ∃ r, withOperands iw (nary op es) fs = .ok r ∧ HasBits r w :=
  have still : InStep (fun _ => True) (default : Valuation) := fun _ _ _ _ => rfl
  (withOperands_nary_yields iw still op es typed.operands some).typed

theorem substituteList_eq_mapM (iw : Int) (env : Expr → Option Expr) (es : List Expr) :
    substituteList iw env es = es.mapM (substitute iw env) := by
  induction es with
  | nil => rfl
  | cons e es ih => simp only [substituteList, ih, List.mapM_cons]

/-- A replacement, or what is rebuilt where there is none. -/
theorem substitute_cases {iw : Int} {env : Expr → Option Expr} {e : Expr} {P : Expr → Prop}
    (replaced : ∀ r, env e = some r → P r)
    (rebuilt : env e = none → ∃ r, substitute iw env e = .ok r ∧ P r) :
    ∃ r, substitute iw env e = .ok r ∧ P r := by
  cases known : env e with
  | none => exact rebuilt known
  | some r => exact ⟨r, by unfold substitute; rw [known], replaced r known⟩

section value

variable {L : Loop → Prop} {ρ ρ' : Valuation}

theorem map_eq_of_forall₂ {α β γ : Type} {f : α → γ} {g : β → γ} {xs : List α} {ys : List β}
    (h : List.Forall₂ (fun x y => g y = f x) xs ys) : ys.map g = xs.map f := by
  induction h with
  | nil => rfl
  | cons here _ ih => rw [List.map_cons, List.map_cons, here, ih]

/-- Only the values of the operands count. -/
private theorem value_nary_congr (op : Nary) {es fs : List Expr} (typed : AllBits es w)
    (typed' : AllBits fs w)
    (same : List.Forall₂ (fun e f => value w ρ f = value w ρ' e) es fs) :
    value w ρ (nary op fs) = value w ρ' (nary op es) := by
  have length := same.length_eq
  have maxima (signed : Bool) :
      value w ρ (nary (if signed then .signedMax else .unsignedMax) fs) =
        value w ρ' (nary (if signed then .signedMax else .unsignedMax) es) := by
    by_cases none : es = []
    · have none' : fs = [] := List.length_eq_zero_iff.mp (by simp [← length, none])
      cases signed <;> simp [none, none', value, meaning, meanings_eq_map]
    · have some : fs ≠ [] := List.ne_nil_of_length_pos
        (by rw [← length]; exact List.length_pos_of_ne_nil none)
      rw [value, value, meaning_maximum signed ρ typed' some, meaning_maximum signed ρ' typed none,
        map_eq_of_forall₂ (same.imp fun e f h => readAs_congr signed h)]
  cases op with
  | sum => rw [value_sum, value_sum, map_eq_of_forall₂ same]
  | product => rw [value_product, value_product, map_eq_of_forall₂ same]
  | signedMax => exact maxima true
  | unsignedMax => exact maxima false

/-- What is known under `ρ` of the expressions that `env` replaces, and of the others under `ρ'`:
each replacement stands for what it replaces. -/
structure Interprets (L : Loop → Prop) (ρ ρ' : Valuation) (env : Expr → Option Expr) : Prop where
  replaced : ∀ e r v, env e = some r → HasBits e v → Within L e → Stands L ρ v (value v ρ' e) r
  unknown : ∀ s b, env (.unknown s b) = none → ρ.unknown s b = ρ'.unknown s b
  count : ρ.count = ρ'.count
  overZero : ρ.overZero = ρ'.overZero

theorem substitute_yields (iw : Int) (inStep : InStep L ρ) {env : Expr → Option Expr}
    (reads : Interprets L ρ ρ' env) {e : Expr} (typed : HasBits e w) (within : Within L e) :
    Yields L ρ w (substitute iw env e) (value w ρ' e) := by
  induction typed using HasBits.cast_induction with
  | const pos inRange =>
    have typed := HasBits.const pos inRange
    exact substitute_cases (fun r h => reads.replaced _ r _ h typed within) fun fresh =>
      ⟨_, by simp only [substitute, fresh], typed, within, by simp⟩
  | @unknown s w pos =>
    refine substitute_cases (fun r h => reads.replaced _ r _ h (.unknown pos) within) fun fresh =>
      ⟨.unknown s w, by simp only [substitute, fresh], .unknown pos, within, ?_⟩
    rw [value, value, meaning, meaning, reads.unknown s w fresh]
  | @nary op es w several parts ih =>
    refine substitute_cases (fun r h => reads.replaced _ r _ h (.nary several parts) within)
      fun fresh => ?_
    obtain ⟨fs, hfs, stand⟩ := mapM_related fun e he => ih e he (within_nary.mp within e he)
    have ops : Operands L w fs := fun f hf => by
      obtain ⟨e, -, h⟩ := exists_of_forall₂ stand hf
      exact ⟨h.typed, h.within⟩
    have length := stand.length_eq
    have some : fs ≠ [] := List.ne_nil_of_length_pos (by omega)
    obtain ⟨r, hr, result⟩ := withOperands_nary_yields iw inStep op fs ops some
    rw [value_nary_congr op parts ops.typed (stand.imp fun e f h => h.value_eq)] at result
    refine ⟨r, ?_, result⟩
    cases es with
    | nil => simp at several
    | cons e es => simp only [substitute, fresh, substituteList_eq_mapM, hfs, ok_bind, hr]
  | @quotient lhs rhs w hl hr iha ihb =>
    refine substitute_cases (fun r h => reads.replaced _ r _ h (.quotient hl hr) within)
      fun fresh => ?_
    obtain ⟨a, ha, first⟩ := iha (within_quotient.mp within).1
    obtain ⟨b, hb, second⟩ := ihb (within_quotient.mp within).2
    obtain ⟨r, hr', result⟩ :=
      unsignedQuotient_yields ρ first.typed second.typed first.within second.within
    refine ⟨r, ?_, result.typed, result.within, result.value_eq.trans ?_⟩
    · simp only [substitute, fresh, ha, hb, ok_bind, withOperands_quotient, hr']
    · rw [value, meaning_quotient hl hr, quotientOf, quotientOf, readUnsigned_congr first.value_eq,
        readUnsigned_congr second.value_eq, reads.overZero]
  | @cast kind e v w arg admits other ih =>
    refine substitute_cases
      (fun r h => reads.replaced _ r _ h (hasBits_cast arg admits other) within) fun fresh => ?_
    obtain ⟨a, ha, stands⟩ := ih (within_cast.mp within)
    obtain ⟨r, hr, result⟩ := convert_yields ρ stands.typed stands.within admits
    rw [castOf_congr admits stands.value_eq, ← meaning_cast arg kind w ρ'] at result
    refine ⟨r, ?_, result⟩
    simp only [substitute, fresh, ha, ok_bind, withOperands_cast, hr]
  | @recurrence start step l w ht hs iha ihb =>
    refine substitute_cases (fun r h => reads.replaced _ r _ h (.recurrence ht hs) within)
      fun fresh => ?_
    obtain ⟨known, withinStart, withinStep⟩ := within_recurrence.mp within
    obtain ⟨a, ha, first⟩ := iha withinStart
    obtain ⟨b, hb, second⟩ := ihb withinStep
    have result : Stands L ρ w _ (recur a b l) :=
      recur_stands l known first.typed second.typed first.within second.within
    refine ⟨recur a b l, ?_, result.typed, result.within, result.value_eq.trans ?_⟩
    · simp only [substitute, fresh, ha, hb, ok_bind, withOperands_recurrence]
    · rw [value_recurrence, first.value_eq, second.value_eq, reads.count]

end value

end ShapeRecovery.Expr
