import ShapeRecovery.Proofs.Expr.Substitution

namespace ShapeRecovery.Expr

/-- `P` holds below every node that it holds of, and of what is built over operands that it holds
of. A recurrence may only be replaced by one over its own loop. -/
structure Hereditary (iw : Int) (P : Expr → Prop) : Prop where
  const : ∀ v w, P (.const v w)
  below : ∀ {e}, P e → ∀ f ∈ e.operands, P f
  sum : ∀ {es w r}, es ≠ [] → AllBits es w → (∀ e ∈ es, P e) → sumOf iw es = .ok r → P r
  product : ∀ {es w r}, es ≠ [] → AllBits es w → (∀ e ∈ es, P e) → productOf iw es = .ok r → P r
  maximum : ∀ {signed es w r}, es ≠ [] → AllBits es w → (∀ e ∈ es, P e) →
    maximum signed iw es = .ok r → P r
  quotient : ∀ {a b w r}, HasBits a w → HasBits b w → P a → P b → unsignedQuotient a b = .ok r → P r
  cast : ∀ {kind e v w r}, HasBits e v → Admits kind v w → P e → convert kind w e = .ok r → P r
  recurrence : ∀ {a b a' b' l}, P (.recurrence a b l) → P a' → P b' → P (recur a' b' l)

variable {iw w v : Int} {P : Expr → Prop} {L : Loop → Prop}

theorem hereditary_true (iw : Int) : Hereditary iw fun _ => True where
  const _ _ := trivial
  below _ _ _ := trivial
  sum _ _ _ _ := trivial
  product _ _ _ _ := trivial
  maximum _ _ _ _ := trivial
  quotient _ _ _ _ _ := trivial
  cast _ _ _ _ := trivial
  recurrence _ _ _ := trivial

private theorem within_recur {a b : Expr} {l : Loop} (known : L l) (start : Within L a) (step : Within L b) :
    Within L (recur a b l) :=
  recur_induction l (by simp [Within, loops]) (fun _ => start) fun _ =>
    within_recurrence.mpr ⟨known, start, step⟩

/-- No constructor brings in a loop. -/
theorem hereditary_within (iw : Int) (L : Loop → Prop) : Hereditary iw (Within L) := by
  -- Where no loop has made an iteration, all loops are in step.
  have still : InStep L (default : Valuation) := fun _ _ _ _ => rfl
  have yielded {w : Int} {x : Except Fault Expr} {u : ZMod (Word.modulus w)} {r : Expr}
      (yields : Yields L default w x u) (run : x = .ok r) : Within L r := by
    obtain ⟨r', run', stands⟩ := yields
    rw [run] at run'
    cases run'
    exact stands.within
  have operands {w : Int} {es : List Expr} (typed : AllBits es w) (within : ∀ e ∈ es, Within L e) :
      Operands L w es := fun e he => ⟨typed e he, within e he⟩
  exact {
    const := within_const
    below := by
      intro e within f hf
      cases e with
      | nary op es => exact within_nary.mp within f hf
      | quotient a b =>
        obtain ⟨first, second⟩ := within_quotient.mp within
        rcases List.mem_pair.mp hf with rfl | rfl <;> assumption
      | cast k a b =>
        obtain rfl := List.mem_singleton.mp hf
        exact within_cast.mp within
      | recurrence a b l =>
        obtain ⟨-, first, second⟩ := within_recurrence.mp within
        rcases List.mem_pair.mp hf with rfl | rfl <;> assumption
      | _ => simp [Expr.operands] at hf
    sum := fun some typed within run => yielded (sumOf_yields iw still (operands typed within) some) run
    product := fun some typed within run =>
      yielded (productOf_yields iw still (operands typed within) some) run
    maximum := fun some typed within run =>
      yielded (maximum_yields _ default iw (operands typed within) some) run
    quotient := fun ha hb first second run =>
      yielded (unsignedQuotient_yields default ha hb first second) run
    cast := fun typed admits within run => yielded (convert_yields default typed within admits) run
    recurrence := fun within start step => within_recur (within_recurrence.mp within).1 start step }

namespace Hereditary

variable (closed : Hereditary iw P)
include closed

theorem nary {op : Nary} {es fs : List Expr} {r : Expr} (some : fs ≠ []) (typed : AllBits fs w)
    (parts : ∀ f ∈ fs, P f) (run : withOperands iw (.nary op es) fs = .ok r) : P r := by
  cases op with
  | sum => exact closed.sum some typed parts run
  | product => exact closed.product some typed parts run
  | signedMax => exact closed.maximum some typed parts run
  | unsignedMax => exact closed.maximum some typed parts run

/-- A substitution that keeps widths has a result, of which `P` holds if it holds of the
replacements. -/
theorem substitute {env : Expr → Option Expr}
    (keeps : ∀ e r v, env e = some r → HasBits e v → HasBits r v)
    (replaced : ∀ e r, env e = some r → P r) {e : Expr} (typed : HasBits e w) (h : P e) :
    ∃ r, substitute iw env e = .ok r ∧ HasBits r w ∧ P r := by
  induction typed using HasBits.cast_induction with
  | const pos inRange =>
    exact substitute_cases (fun r known => ⟨keeps _ r _ known (.const pos inRange), replaced _ r known⟩)
      fun fresh => ⟨_, by simp only [Expr.substitute, fresh], .const pos inRange, h⟩
  | @unknown s w pos =>
    exact substitute_cases (fun r known => ⟨keeps _ r _ known (.unknown pos), replaced _ r known⟩)
      fun fresh => ⟨.unknown s w, by simp only [Expr.substitute, fresh], .unknown pos, h⟩
  | @nary op es w several parts ih =>
    refine substitute_cases
      (fun r known => ⟨keeps _ r _ known (.nary several parts), replaced _ r known⟩) fun fresh => ?_
    obtain ⟨fs, hfs, length, all⟩ := mapM_all fun e he => ih e he (closed.below h e he)
    have some : fs ≠ [] := List.ne_nil_of_length_pos (by omega)
    have typed : AllBits fs w := fun f hf => (all f hf).1
    obtain ⟨r, hr, rtyped⟩ := withOperands_nary_typed iw op fs typed some
    refine ⟨r, ?_, rtyped, closed.nary some typed (fun f hf => (all f hf).2) hr⟩
    cases es with
    | nil => simp at several
    | cons e es => simp only [Expr.substitute, fresh, substituteList_eq_mapM, hfs, ok_bind, hr]
  | quotient lhs rhs iha ihb =>
    refine substitute_cases
      (fun r known => ⟨keeps _ r _ known (.quotient lhs rhs), replaced _ r known⟩) fun fresh => ?_
    obtain ⟨a, ha, hatyped, first⟩ := iha (closed.below h _ (by simp [operands]))
    obtain ⟨b, hb, hbtyped, second⟩ := ihb (closed.below h _ (by simp [operands]))
    obtain ⟨r, hr, rtyped⟩ := unsignedQuotient_typed hatyped hbtyped
    refine ⟨r, ?_, rtyped, closed.quotient hatyped hbtyped first second hr⟩
    simp only [Expr.substitute, fresh, ha, hb, ok_bind, withOperands_quotient, hr]
  | @cast kind e v w arg admits other ih =>
    refine substitute_cases
      (fun r known => ⟨keeps _ r _ known (hasBits_cast arg admits other), replaced _ r known⟩) ?_
    intro fresh
    obtain ⟨a, ha, hatyped, inner⟩ := ih (closed.below h e (by simp [operands]))
    obtain ⟨r, hr, rtyped⟩ := convert_typed hatyped admits
    refine ⟨r, ?_, rtyped, closed.cast hatyped admits inner hr⟩
    simp only [Expr.substitute, fresh, ha, ok_bind, withOperands_cast, hr]
  | @recurrence a b l w start step iha ihb =>
    refine substitute_cases
      (fun r known => ⟨keeps _ r _ known (.recurrence start step), replaced _ r known⟩) fun fresh => ?_
    obtain ⟨a, ha, hatyped, first⟩ := iha (closed.below h _ (by simp [operands]))
    obtain ⟨b, hb, hbtyped, second⟩ := ihb (closed.below h _ (by simp [operands]))
    refine ⟨recur a b l, ?_, hasBits_recur l hatyped hbtyped, closed.recurrence h first second⟩
    simp only [Expr.substitute, fresh, ha, hb, ok_bind, withOperands_recurrence]

end Hereditary

end ShapeRecovery.Expr
