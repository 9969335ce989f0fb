import ShapeRecovery.Proofs.Expr.CanonicalForm

namespace ShapeRecovery.Expr

/-- At every node products are sorted, opened and joined, and recurrences have a step. -/
inductive Multiplied : Expr → Prop
  | const (v w : Int) : Multiplied (.const v w)
  | unknown (s : Symbol) (w : Int) : Multiplied (.unknown s w)
  | uncomputable : Multiplied .uncomputable
  | nary {op : Nary} {ops : List Expr} (fit : op = .product → OperandsFit .product ops ∧ Joined ops)
      (parts : ∀ e ∈ ops, Multiplied e) : Multiplied (.nary op ops)
  | quotient {a b : Expr} (lhs : Multiplied a) (rhs : Multiplied b) : Multiplied (.quotient a b)
  | cast {kind : CastKind} {e : Expr} {w : Int} (arg : Multiplied e) : Multiplied (.cast kind e w)
  | recurrence {a b : Expr} {l : Loop} (moves : b.isZero = false) (start : Multiplied a)
      (step : Multiplied b) : Multiplied (.recurrence a b l)

variable {es head others : List Expr} {a b e r : Expr} {op : Nary} {l : Loop} {w iw : Int}

theorem Multiplied.operands (multiplied : Multiplied e) : ∀ f ∈ e.operands, Multiplied f := by
  cases multiplied with
  | nary _ parts => exact parts
  | quotient lhs rhs => simpa [Expr.operands] using ⟨lhs, rhs⟩
  | cast arg => simpa [Expr.operands] using arg
  | recurrence _ start step => simpa [Expr.operands] using ⟨start, step⟩
  | _ => simp [Expr.operands]

theorem LeadingFactor.front (leading : LeadingFactor head) : Front .product head := by
  rcases leading with rfl | ⟨c, w, nonzero, other, rfl⟩
  · exact front_nil _
  · exact front_singleton (not_or.mpr ⟨nonzero, other⟩)

/-- No operand is left to be opened if none is inside the operands. -/
theorem opened_flatten (inside : ∀ fs, nary op fs ∈ es → ∀ f ∈ fs, f.naryOp? ≠ some op) :
    ∀ e ∈ flatten op es, e.naryOp? ≠ some op := by
  intro e mem
  rcases mem_flatten mem with ⟨-, opened⟩ | ⟨fs, mem, part⟩
  · exact opened
  · exact inside fs mem e part

/-- Factors of products of which none would be joined further are themselves no products. -/
theorem opened_of_multiplied (multiplied : ∀ e ∈ es, Multiplied e) :
    ∀ e ∈ plainFactors es, e.naryOp? ≠ some .product := by
  intro e he
  refine opened_flatten (fun fs hfs => ?_) e (List.mem_of_mem_filter he)
  cases multiplied _ hfs with
  | nary fit _ => exact (fit rfl).1.opened

theorem inherited_multiplied : Inherited Multiplied where
  const v w := .const v w
  uncomputable := .uncomputable
  below := Multiplied.operands
  recur l start step := recur_induction l .uncomputable (fun _ => start) fun moves =>
    .recurrence moves start step
  sum parts := .nary (fun product => by cases product) parts
  maximum _ _ := handsOn_maximum .const .uncomputable Multiplied.operands fun other parts =>
    .nary (fun product => absurd product other) parts
  quotient first second := .quotient first second
  cast here := .cast here
  otherFactors := by
    intro v w es several multiplied
    cases multiplied with
    | nary fit parts =>
      obtain ⟨fit, joined⟩ := fit rfl
      have many : 2 ≤ es.length := by
        have many := fit.several
        rcases es with _ | ⟨f, _ | ⟨g, es⟩⟩
        · simp at many
        · exact absurd rfl (several f)
        · simp
      refine .nary (fun _ => ⟨fit.tail many, scalable_of_const joined.unscaled, ?_⟩)
        fun e he => parts e (List.mem_cons_of_mem _ he)
      rintro u b ts rfl
      exact absurd (fit.constantFirst (.const u b) (by simp)) (by simp [isConst])
  product := by
    intro es head r parts plain leading some unscaled alone run
    have front := leading.front
    have others : ∀ e ∈ plainFactors es, e.isConst = false := fun e => isConst_of_plainFactors
    have all : ∀ e ∈ head ++ plainFactors es, Multiplied e := by
      refine List.forall_mem_append.mpr ⟨fun e he => ?_, plain⟩
      obtain ⟨c, w, rfl, -⟩ := front e he
      rw [List.mem_singleton.mp he]
      exact .const c w
    rcases ordered_cases (List.append_ne_nil_of_right_ne_nil _ some) run with single |
      ⟨fs, hfs, several, rfl⟩
    · exact all r (by simp [single])
    · have perm := perm_of_sorted hfs
      refine .nary (fun _ => ⟨?_, front.joined others unscaled alone perm⟩)
        fun e he => all e (perm.mem_iff.mp he)
      exact operandsFit_of_sorted hfs several (front.opened (opened_of_multiplied parts))
        (front.single others) (front.notTrivial others) (fun sum => by cases sum)

/-- A property that the constructors hand on holds of what they reach, if it holds of the unknowns. -/
theorem Inherited.built {P : Expr → Prop} {addFits mulFits : Check} (closed : Inherited P)
    (unknowns : ∀ s w, P (.unknown s w)) (built : Built iw addFits mulFits e w) : P e := by
  have kept := closed.hereditary iw
  induction built with
  | const _ run => exact closed.ofInt run
  | unknown s _ => exact unknowns s _
  | inductionVariable _ run =>
    obtain ⟨start, hstart, run⟩ := bind_eq_ok.mp run
    obtain ⟨step, hstep, made⟩ := bind_eq_ok.mp run
    cases made
    exact closed.recur _ (closed.ofInt hstart) (closed.ofInt hstep)
  | sum some parts _ run ih => exact kept.sum some (fun e he => (parts e he).hasBits) ih run
  | product some parts _ run ih => exact kept.product some (fun e he => (parts e he).hasBits) ih run
  | maximum some parts run ih => exact kept.maximum some (fun e he => (parts e he).hasBits) ih run
  | quotient lhs rhs run first second => exact kept.quotient lhs.hasBits rhs.hasBits first second run
  | cast arg admits run ih => exact kept.cast arg.hasBits admits ih run
  | recurrence l _ _ start step => exact closed.recur l start step

theorem Built.multiplied {addFits mulFits : Check} (built : Built iw addFits mulFits e w) : Multiplied e :=
  inherited_multiplied.built .unknown built

end ShapeRecovery.Expr
