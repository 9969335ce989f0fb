import ShapeRecovery.Expr.CommonDivisor
import ShapeRecovery.Proofs.Expr.Joins
import ShapeRecovery.Proofs.Expr.KeyOrder
import ShapeRecovery.Proofs.Expr.ZeroFactor

namespace ShapeRecovery.Expr

/-- Factors that are not joined further: no recurrence to scale, and no constant before a sum. -/
structure Joined (factors : List Expr) : Prop where
  unscaled : scalable? factors = none
  undistributed : ∀ v w es, factors ≠ [const v w, nary .sum es]

/-- Computable and canonical at every node, with products that would not be joined further. -/
inductive Settled : Expr → Prop
  | const (v w : Int) : Settled (.const v w)
  | unknown (s : Symbol) (w : Int) : Settled (.unknown s w)
  | nary {op : Nary} {ops : List Expr} (fit : OperandsFit op ops) (joined : op = .product → Joined ops)
      (parts : ∀ e ∈ ops, Settled e) : Settled (.nary op ops)
  | quotient {a b : Expr} (lhs : Settled a) (rhs : Settled b) : Settled (.quotient a b)
  | cast {kind : CastKind} {e : Expr} {w : Int} (fit : CastFits kind e) (arg : Settled e) :
      Settled (.cast kind e w)
  | recurrence {a b : Expr} {l : Loop} (moves : b.isZero = false) (start : Settled a)
      (step : Settled b) : Settled (.recurrence a b l)

variable {e f r b : Expr} {es fs gs ts : List Expr} {op : Nary} {v w c : Int} {l : Loop}

theorem Settled.canonical (settled : Settled e) : Canonical e := by
  induction settled with
  | const v w => exact .const v w
  | unknown s w => exact .unknown s w
  | nary fit _ _ ih => exact .nary fit ih
  | quotient _ _ lhs rhs => exact .quotient lhs rhs
  | cast fit _ arg => exact .cast fit arg
  | recurrence moves _ _ start step => exact .recurrence moves start step

theorem Settled.ne_uncomputable (settled : Settled e) : e ≠ uncomputable := by
  rintro rfl
  cases settled

theorem no_uncomputable (settled : ∀ e ∈ es, Settled e) : es.contains uncomputable = false := by
  simpa using fun mem => (settled _ mem).ne_uncomputable rfl

theorem Settled.operands (settled : Settled e) : ∀ f ∈ e.operands, Settled f := by
  cases settled with
  | nary _ _ parts => exact parts
  | quotient lhs rhs => simpa [Expr.operands] using ⟨lhs, rhs⟩
  | cast _ arg => simpa [Expr.operands] using arg
  | recurrence _ start step => simpa [Expr.operands] using ⟨start, step⟩
  | _ => simp [Expr.operands]

theorem recur_settled {a b : Expr} (start : Settled a) (step : Settled b) (l : Loop) :
    recur a b l = if b.isZero then a else .recurrence a b l := by
  simp [recur, start.ne_uncomputable, step.ne_uncomputable]

theorem settled_recur {a b : Expr} (start : Settled a) (step : Settled b) (l : Loop) :
    Settled (recur a b l) := by
  rw [recur_settled start step]
  split
  · exact start
  · next moves => exact .recurrence (by simpa using moves) start step

theorem settled_ofInt (run : ofInt v w = .ok r) : Settled r := by
  obtain ⟨u, -, rfl⟩ := ofInt_cases run
  exact .const u w

theorem settled_flatten (op : Nary) (settled : ∀ e ∈ es, Settled e) :
    ∀ e ∈ flatten op es, Settled e ∧ e.naryOp? ≠ some op := by
  intro e mem
  rcases mem_flatten mem with ⟨mem, opened⟩ | ⟨fs, mem, part⟩
  · exact ⟨settled e mem, opened⟩
  · cases settled _ mem with
    | nary fit _ parts => exact ⟨parts e part, fit.opened e part⟩

section scalable

theorem scalable_eq_some {a b : Expr} : scalable? fs = some (a, b, l) ↔
    (fs.filter fun f => f.isRecurrence) = [recurrence a b l] ∧
      (fs.filter fun f => !f.isRecurrence) ≠ [] ∧
        ∀ f ∈ fs.filter fun f => !f.isRecurrence, f.dependsOn l = false := by
  unfold scalable?
  split
  · next start step m single =>
    rw [single]
    generalize (fs.filter fun f => !f.isRecurrence) = scale
    by_cases stuck : (scale.isEmpty || scale.any fun f => f.dependsOn m) = true
    · simp only [stuck, if_true, reduceCtorEq, false_iff]
      rintro ⟨same, some, free⟩
      cases same
      rw [Bool.or_eq_true, List.isEmpty_iff, List.any_eq_true] at stuck
      rcases stuck with none | ⟨f, hf, moves⟩
      · exact some none
      · simp [free f hf] at moves
    · simp only [stuck, Bool.false_eq_true, if_false]
      rw [Bool.or_eq_true, not_or, List.isEmpty_iff] at stuck
      have free : ∀ f ∈ scale, f.dependsOn m = false := by simpa using stuck.2
      constructor
      · intro same
        cases same
        exact ⟨rfl, stuck.1, free⟩
      · rintro ⟨same, -, -⟩
        cases same
        rfl
  · next other =>
    simp only [reduceCtorEq, false_iff]
    rintro ⟨single, -, -⟩
    exact other a b l single

/-- Factors are not scaled if others would be too that are not. -/
theorem unscaled_of_imp (unscaled : scalable? es = none)
    (again : ∀ a b l, scalable? fs = some (a, b, l) → scalable? es = some (a, b, l)) :
    scalable? fs = none := by
  refine Option.eq_none_iff_forall_ne_some.mpr fun ⟨a, b, l⟩ scaled => ?_
  simp [again a b l scaled] at unscaled

theorem scalable_perm (perm : fs.Perm es) (unscaled : scalable? es = none) : scalable? fs = none := by
  refine unscaled_of_imp unscaled fun a b l scaled => ?_
  obtain ⟨single, some, free⟩ := scalable_eq_some.mp scaled
  refine scalable_eq_some.mpr ⟨?_, ?_, fun f hf => free f ((perm.filter _).mem_iff.mpr hf)⟩
  · exact List.perm_singleton.mp (single ▸ (perm.filter _).symm)
  · exact fun none => some (List.perm_nil.mp (none ▸ perm.filter _))

theorem const_dependsOn : (const v w).dependsOn l = false := by simp [dependsOn, loops]

/-- A constant does not keep other factors from being scaled. -/
theorem scalable_of_const (unscaled : scalable? (const v w :: fs) = none) : scalable? fs = none := by
  refine unscaled_of_imp unscaled fun a b l scaled => ?_
  obtain ⟨single, some, free⟩ := scalable_eq_some.mp scaled
  refine scalable_eq_some.mpr ⟨by simpa [isRecurrence] using single, by simp [isRecurrence], ?_⟩
  simpa [isRecurrence, const_dependsOn] using free

/-- Factors of which no recurrence is scaled stay so beside others that are no recurrences, unless they
are one recurrence. -/
theorem scalable_append (unscaled : scalable? fs = none) (several : ∀ f, fs = [f] → f.isRecurrence = false)
    (still : ∀ g ∈ gs, g.isRecurrence = false) : scalable? (fs ++ gs) = none := by
  refine unscaled_of_imp unscaled fun a b l scaled => ?_
  obtain ⟨single, -, free⟩ := scalable_eq_some.mp scaled
  have none : gs.filter (fun f => f.isRecurrence) = [] :=
    List.filter_eq_nil_iff.mpr fun g hg => by simp [still g hg]
  rw [List.filter_append, none, List.append_nil] at single
  refine scalable_eq_some.mpr ⟨single, fun alone => ?_, fun f hf => free f ?_⟩
  · have split := List.filter_append_perm (fun f : Expr => f.isRecurrence) fs
    rw [single, alone, List.append_nil] at split
    exact absurd (several _ (List.perm_singleton.mp split.symm)) (by simp [isRecurrence])
  · rw [List.filter_append]
    exact List.mem_append_left _ hf

theorem scalable_cons_const (unscaled : scalable? fs = none)
    (several : ∀ f, fs = [f] → f.isRecurrence = false) : scalable? (const v w :: fs) = none := by
  refine scalable_perm (List.perm_append_singleton (const v w) fs).symm ?_
  exact scalable_append unscaled several (by simp [isRecurrence])

end scalable

section ordered

/-- Operands that only have to be sorted to be those of a canonical node. -/
structure Sortable (op : Nary) (es : List Expr) : Prop where
  settled : ∀ e ∈ es, Settled e
  opened : ∀ e ∈ es, e.naryOp? ≠ some op
  single : (es.filter fun e => e.isConst).length ≤ 1
  notTrivial : ∀ v w, const v w ∈ es → ¬ Trivial op v
  unlike : op = .sum → Unlike es
  joined : op = .product → ∀ fs, fs.Perm es → Joined fs

theorem Unlike.perm (unlike : Unlike es) (perm : fs.Perm es) : Unlike fs := by
  refine (perm.pairwise_iff ?_).mpr unlike
  intro a b apart c d x y first second other other'
  exact (apart d c y x second first other' other).symm

/-- One constant of operands in order comes first. -/
private theorem constantFirst_of_keysRise (rise : KeysRise es)
    (single : (es.filter fun e => e.isConst).length ≤ 1) : ∀ e ∈ es.tail, e.isConst = false := by
  cases es with
  | nil => simp
  | cons e es =>
    cases constant : e.isConst with
    | false => exact rise.others constant
    | true =>
      have none : es.filter (fun e => e.isConst) = [] := by simpa [constant] using single
      intro f hf
      simpa using List.filter_eq_nil_iff.mp none f hf

theorem Sortable.perm (sortable : Sortable op es) (perm : fs.Perm es) : Sortable op fs where
  settled e he := sortable.settled e (perm.mem_iff.mp he)
  opened e he := sortable.opened e (perm.mem_iff.mp he)
  single := (perm.filter _).length_eq ▸ sortable.single
  notTrivial v w hv := sortable.notTrivial v w (perm.mem_iff.mp hv)
  unlike sum := (sortable.unlike sum).perm perm
  joined product gs hgs := sortable.joined product gs (hgs.trans perm)

/-- Operands in canonical order are one operand, or two or more of an operator. -/
theorem ordered_cases (some : es ≠ []) (run : ordered op es = .ok r) :
    es = [r] ∨ ∃ fs, sorted es = .ok fs ∧ 2 ≤ fs.length ∧ r = .nary op fs := by
  rcases ordered_run run with single | ⟨several, fs, hfs, made⟩
  · exact .inl single
  · have length := (perm_of_sorted hfs).length_eq
    have filled := List.length_pos_of_ne_nil some
    exact .inr ⟨fs, hfs, by omega, made⟩

/-- Operands that were sorted are those of a canonical node if none is to be opened, and their constant
is not trivial. -/
theorem operandsFit_of_sorted (run : sorted es = .ok fs) (several : 2 ≤ fs.length)
    (opened : ∀ e ∈ es, e.naryOp? ≠ some op) (single : (es.filter fun e => e.isConst).length ≤ 1)
    (notTrivial : ∀ v w, const v w ∈ es → ¬ Trivial op v) (unlike : op = .sum → Unlike es) :
    OperandsFit op fs := by
  have perm := perm_of_sorted run
  have rise := keysRise_of_sorted run
  exact {
    several := several
    rising := rise
    opened := fun e he => opened e (perm.mem_iff.mp he)
    constantFirst := constantFirst_of_keysRise rise ((perm.filter _).length_eq ▸ single)
    notTrivial := fun v w hv => notTrivial v w (perm.mem_iff.mp hv)
    unlike := fun sum => (unlike sum).perm perm }

theorem Sortable.settled_ordered (sortable : Sortable op es) (some : es ≠ [])
    (run : ordered op es = .ok r) : Settled r := by
  rcases ordered_cases some run with rfl | ⟨fs, hfs, several, rfl⟩
  · exact sortable.settled r (by simp)
  · have sorted := sortable.perm (perm_of_sorted hfs)
    refine .nary ?_ (fun product => sorted.joined product fs (.refl fs)) sorted.settled
    exact operandsFit_of_sorted hfs several sortable.opened sortable.single sortable.notTrivial
      sortable.unlike

theorem filter_const_nil (others : ∀ e ∈ es, e.isConst = false) :
    (es.filter fun e => e.isConst) = [] :=
  List.filter_eq_nil_iff.mpr fun e he => by simp [others e he]

/-- The constant of an operator, collected from its operands; a trivial one is left out. -/
def Front (op : Nary) (head : List Expr) : Prop :=
  ∀ e ∈ head, ∃ c w, head = [const c w] ∧ ¬ Trivial op c

theorem front_nil (op : Nary) : Front op [] := by simp [Front]

theorem front_singleton (other : ¬ Trivial op c) : Front op [const c w] :=
  fun _ _ => ⟨c, w, rfl, other⟩

namespace Front

variable {head : List Expr} (front : Front op head)
include front

theorem isConst : ∀ e ∈ head, e.isConst = true := by
  intro e he
  obtain ⟨c, w, rfl, -⟩ := front e he
  rw [List.mem_singleton.mp he, Expr.isConst]

theorem length_le : head.length ≤ 1 := by
  cases head with
  | nil => simp
  | cons e es =>
    obtain ⟨c, w, same, -⟩ := front e (by simp)
    simp [same]

theorem opened (others : ∀ e ∈ es, e.naryOp? ≠ some op) : ∀ e ∈ head ++ es, e.naryOp? ≠ some op := by
  refine List.forall_mem_append.mpr ⟨fun e he => ?_, others⟩
  obtain ⟨c, w, rfl, -⟩ := front e he
  simp [List.mem_singleton.mp he, naryOp?]

theorem single (others : ∀ e ∈ es, e.isConst = false) :
    ((head ++ es).filter fun e => e.isConst).length ≤ 1 := by
  rw [List.filter_append, filter_const_nil others, List.append_nil]
  exact (List.length_filter_le _ _).trans front.length_le

theorem notTrivial (others : ∀ e ∈ es, e.isConst = false) :
    ∀ v w, const v w ∈ head ++ es → ¬ Trivial op v := by
  intro v w hv
  rcases List.mem_append.mp hv with hv | hv
  · obtain ⟨c, w', rfl, other⟩ := front _ hv
    cases List.mem_singleton.mp hv
    exact other
  · exact absurd (others _ hv) (by simp [Expr.isConst])

/-- Factors are joined in any order of them. -/
theorem joined (others : ∀ e ∈ es, e.isConst = false) (unscaled : scalable? (head ++ es) = none)
    (alone : ∀ k ts, head = [k] → es = [nary .sum ts] → False) (perm : fs.Perm (head ++ es)) :
    Joined fs := by
  refine ⟨scalable_perm perm unscaled, ?_⟩
  rintro v b ts rfl
  have fronts : head.filter (fun e => e.isConst) = head := List.filter_eq_self.mpr front.isConst
  have behind : head.filter (fun e => !e.isConst) = [] :=
    List.filter_eq_nil_iff.mpr fun e he => by simp [front.isConst e he]
  have kept : es.filter (fun e => !e.isConst) = es :=
    List.filter_eq_self.mpr fun e he => by simp [others e he]
  have first := perm.filter fun e => e.isConst
  have second := perm.filter fun e => !e.isConst
  rw [List.filter_append, fronts, filter_const_nil others, List.append_nil] at first
  rw [List.filter_append, behind, kept, List.nil_append] at second
  exact alone (const v b) ts (List.singleton_perm.mp first).symm (List.singleton_perm.mp second).symm

/-- A constant and operands that are none may be sorted, if the others may and the whole is joined. -/
theorem sortable (others : ∀ e ∈ es, Settled e ∧ e.isConst = false ∧ e.naryOp? ≠ some op)
    (unlike : op = .sum → Unlike es)
    (joined : op = .product → ∀ fs, fs.Perm (head ++ es) → Joined fs) : Sortable op (head ++ es) where
  settled := by
    refine List.forall_mem_append.mpr ⟨fun e he => ?_, fun e he => (others e he).1⟩
    obtain ⟨c, w, rfl, -⟩ := front e he
    rw [List.mem_singleton.mp he]
    exact .const c w
  opened := front.opened fun e he => (others e he).2.2
  single := front.single fun e he => (others e he).2.1
  notTrivial := front.notTrivial fun e he => (others e he).2.1
  unlike sum := by
    have alone : Unlike head := by
      cases head with
      | nil => exact .nil
      | cons e es =>
        obtain ⟨c, w, same, -⟩ := front e (by simp)
        rw [same]
        exact List.pairwise_singleton _ _
    refine List.pairwise_append.mpr ⟨alone, unlike sum, ?_⟩
    intro a ha b _ _ _ _ _ _ _ other
    simp [front.isConst a ha] at other
  joined := joined

end Front

theorem isConst_dependsOn (moves : e.dependsOn l = true) : e.isConst = false := by
  cases e with
  | const v w => simp [dependsOn, loops] at moves
  | _ => rfl

end ordered

section base

/-- What the terms of a sum are multiples of: no constant, sum or recurrence, and no product with a
constant factor. -/
structure Base (b : Expr) : Prop where
  settled : Settled b
  still : b.isRecurrence = false
  noSum : b.naryOp? ≠ some .sum
  constFree : ∀ f ∈ factorsOf b, f.isConst = false

theorem OperandsFit.tail {ops : List Expr} (fit : OperandsFit .product (const v w :: ops))
    (several : 2 ≤ ops.length) : OperandsFit .product ops where
  several := several
  rising := fit.rising.tail
  opened e he := fit.opened e (by simp [he])
  constantFirst e he := fit.constantFirst e (List.mem_of_mem_tail he)
  notTrivial u b hu := fit.notTrivial u b (by simp [hu])
  unlike sum := by cases sum

/-- What stands alone beside a constant factor is a base. -/
theorem base_of_factor (settled : Settled (.nary .product [const v w, b])) : Base b := by
  cases settled with
  | nary fit joined parts =>
    obtain ⟨unscaled, undistributed⟩ := joined rfl
    have constFree : b.isConst = false := fit.constantFirst b (by simp)
    have opened : b.naryOp? ≠ some .product := fit.opened b (by simp)
    refine ⟨parts b (by simp), ?_, ?_, ?_⟩
    · cases b with
      | recurrence a s l =>
        have scaled : scalable? [const v w, recurrence a s l] = some (a, s, l) :=
          scalable_eq_some.mpr ⟨rfl, by simp [isRecurrence], by simp [isRecurrence, const_dependsOn]⟩
        simp [scaled] at unscaled
      | _ => rfl
    · intro sum
      obtain ⟨es, rfl⟩ := naryOp_eq.mp sum
      exact undistributed v w es rfl
    · unfold factorsOf
      split
      · exact absurd rfl opened
      · simpa using constFree

/-- Several factors beside a constant are a base together. -/
theorem base_of_factors (settled : Settled (.nary .product (const v w :: fs)))
    (several : ∀ f, fs ≠ [f]) : Base (.nary .product fs) := by
  cases settled with
  | nary fit joined parts =>
    obtain ⟨unscaled, -⟩ := joined rfl
    have others : ∀ f ∈ fs, f.isConst = false := fit.constantFirst
    have length : 2 ≤ fs.length := by
      have many := fit.several
      rcases fs with _ | ⟨f, _ | ⟨g, fs⟩⟩
      · simp at many
      · exact absurd rfl (several f)
      · simp
    have joined' : Joined fs := by
      refine ⟨scalable_of_const unscaled, ?_⟩
      rintro v w es rfl
      simpa [isConst] using others (const v w) (by simp)
    have whole : Settled (.nary .product fs) :=
      .nary (fit.tail length) (fun _ => joined') fun f hf => parts f (by simp [hf])
    exact ⟨whole, rfl, by simp [naryOp?], others⟩

/-- A term without a constant factor is a base. -/
theorem base_of_plain (settled : Settled e) (other : e.isConst = false)
    (still : e.isRecurrence = false) (noSum : e.naryOp? ≠ some .sum)
    (plain : ∀ v w fs, e ≠ .nary .product (const v w :: fs)) : Base e := by
  refine ⟨settled, still, noSum, ?_⟩
  cases settled with
  | @nary op ops fit joined parts =>
    cases op with
    | product =>
      cases ops with
      | nil => simp [factorsOf]
      | cons f fs =>
        have first : f.isConst = false := by
          cases f with
          | const v w => exact absurd rfl (plain v w fs)
          | _ => rfl
        exact List.forall_mem_cons.mpr ⟨first, fit.rising.others first⟩
    | _ => simpa [factorsOf] using other
  | _ => simpa [factorsOf] using other

/-- A term without its coefficient is a base. -/
theorem base_of_asMultiple (settled : Settled e) (other : e.isConst = false)
    (still : e.isRecurrence = false) (noSum : e.naryOp? ≠ some .sum)
    (run : asMultiple e = .ok (c, b)) : Base b := by
  rcases asMultiple_cases run with ⟨w, rfl⟩ | ⟨w, fs, several, rfl, rfl⟩ | ⟨whole, -, rfl⟩
  · exact base_of_factor settled
  · exact base_of_factors settled several
  · exact base_of_plain settled other still noSum whole

/-- `e` is a multiple of `b`, and may stand in a sum. -/
structure MultipleOf (b e : Expr) : Prop where
  settled : Settled e
  other : e.isConst = false
  noSum : e.naryOp? ≠ some .sum
  multiple : ∃ k, asMultiple e = .ok (k, b)

theorem constantFactor_others (c : Int) (others : ∀ f ∈ fs, f.isConst = false) :
    constantFactor w c fs = .ok c := by
  induction fs with
  | nil => rfl
  | cons f fs ih =>
    obtain ⟨first, rest⟩ := List.forall_mem_cons.mp others
    cases f with
    | const v b => cases first
    | _ => exact ih rest

namespace Base

variable (base : Base b)
include base

theorem isConst : b.isConst = false := by
  cases b with
  | const v w => exact base.constFree _ (by simp [factorsOf])
  | _ => rfl

/-- A base is one factor that is no product, or a product of several. -/
theorem factors : (b.naryOp? ≠ some .product ∧ factorsOf b = [b]) ∨
    ∃ fs, b = .nary .product fs ∧ factorsOf b = fs ∧ OperandsFit .product fs ∧ Joined fs := by
  have settled := base.settled
  cases settled with
  | @nary op ops fit joined _ =>
    cases op with
    | product => exact .inr ⟨ops, rfl, rfl, fit, joined rfl⟩
    | _ => exact .inl ⟨by simp [naryOp?], rfl⟩
  | _ => exact .inl ⟨by simp [naryOp?], rfl⟩

theorem some : factorsOf b ≠ [] := by
  rcases base.factors with ⟨-, same⟩ | ⟨fs, -, same, fit, -⟩
  · simp [same]
  · rw [same]
    exact List.ne_nil_of_length_pos (by have := fit.several; omega)

theorem rising : KeysRise (factorsOf b) := by
  rcases base.factors with ⟨-, same⟩ | ⟨fs, -, same, fit, -⟩
  · rw [same]
    trivial
  · rw [same]
    exact fit.rising

theorem parts : ∀ f ∈ factorsOf b, Settled f ∧ f.naryOp? ≠ Option.some .product := by
  rcases base.factors with ⟨opened, same⟩ | ⟨fs, rfl, same, fit, -⟩
  · simpa [same] using ⟨base.settled, opened⟩
  · intro f hf
    exact ⟨base.settled.operands f hf, fit.opened f hf⟩

/-- The factors stay together beside a constant. -/
theorem joined (v w : Int) : Joined (const v w :: factorsOf b) := by
  rcases base.factors with ⟨-, same⟩ | ⟨fs, rfl, same, fit, joined⟩
  · refine ⟨scalable_cons_const ?_ ?_, ?_⟩
    · exact scalable_none (by simpa [same] using base.still)
    · intro f hf
      rw [same] at hf
      cases hf
      exact base.still
    · rintro v w es whole
      rw [same] at whole
      cases whole
      exact base.noSum rfl
  · have many := fit.several
    refine ⟨scalable_cons_const joined.unscaled ?_, ?_⟩
    · rintro f rfl
      simp at many
    · rintro v w es whole
      cases whole
      simp at many

theorem asMultiple : asMultiple b = .ok (1, b) := by
  have constFree := base.constFree
  rcases base.factors with ⟨opened, -⟩ | ⟨fs, rfl, -, fit, -⟩
  · cases b with
    | nary op ops =>
      cases op with
      | product => exact absurd rfl opened
      | _ => rfl
    | _ => rfl
  · have many := fit.several
    match fs with
    | [] => simp at many
    | f :: fs =>
      have first : f.isConst = false := constFree f (by simp [factorsOf])
      cases f with
      | const v w => cases first
      | _ => rfl

/-- A base with a coefficient before its factors is a multiple of the base. -/
theorem asMultiple_scaled (v w : Int) :
    Expr.asMultiple (.nary .product (const v w :: factorsOf b)) = .ok (v, b) := by
  rcases base.factors with ⟨-, same⟩ | ⟨fs, rfl, same, fit, -⟩
  · rw [same]
    rfl
  · have many := fit.several
    match fs with
    | [] => simp at many
    | [f] => simp at many
    | f :: g :: fs => rfl

private theorem settled_scaled (nonzero : v ≠ 0) (other : v ≠ 1)
    (rising : KeysRise (const v w :: factorsOf b)) :
    Settled (.nary .product (const v w :: factorsOf b)) := by
  have length := List.length_pos_of_ne_nil base.some
  refine .nary ?_ (fun _ => base.joined v w) ?_
  · exact {
      several := Nat.succ_le_succ length
      rising := rising
      opened := by
        refine List.forall_mem_cons.mpr ⟨by simp [naryOp?], fun f hf => (base.parts f hf).2⟩
      constantFirst := base.constFree
      notTrivial := by
        intro u w' mem
        rcases List.mem_cons.mp mem with same | mem
        · cases same
          simpa [Trivial] using ⟨nonzero, other⟩
        · simpa [Expr.isConst] using base.constFree _ mem
      unlike := fun sum => by cases sum }
  · exact List.forall_mem_cons.mpr ⟨.const v w, fun f hf => (base.parts f hf).1⟩

theorem multipleOf : MultipleOf b b :=
  ⟨base.settled, base.isConst, base.noSum, 1, base.asMultiple⟩

/-- A base times a constant has the constant before its factors. -/
theorem productStep_multipleOf {add mul : Build} {iw : Int} (wrapped : Word.signed c w = .ok c)
    (nonzero : c ≠ 0) (other : c ≠ 1) (run : productStep add mul iw [const c w, b] = .ok r) :
    MultipleOf b r := by
  have settled : ∀ e ∈ [const c w, b], Settled e := by simpa using ⟨.const c w, base.settled⟩
  have computable := no_uncomputable settled
  have flat : flatten .product [const c w, b] = const c w :: factorsOf b := by
    rcases base.factors with ⟨opened, same⟩ | ⟨fs, rfl, same, -, -⟩
    · rw [same, flatten_other (by simp [naryOp?]), flatten_other opened]
      rfl
    · simp [flatten, factorsOf]
  have width : commonWidth iw (const c w :: factorsOf b) = .ok w := rfl
  have factor : constantFactor w 1 (const c w :: factorsOf b) = .ok c := by
    simp only [constantFactor, one_mul, wrapped, ok_bind]
    exact constantFactor_others c base.constFree
  have others : ((const c w :: factorsOf b).filter fun o => !o.isConst) = factorsOf b := by
    rw [List.filter_cons_of_neg (by simp [Expr.isConst])]
    exact List.filter_eq_self.mpr fun f hf => by simp [base.constFree f hf]
  have head : constantHead w c = .ok [const c w] := by
    simp [constantHead, other, ofInt, wrapped]
  have filled : (factorsOf b).isEmpty = false := List.isEmpty_eq_false_iff.mpr base.some
  simp only [productStep, List.isEmpty_cons, computable, flat, width, factor, others, nonzero, filled,
    head, ok_bind, Bool.false_eq_true, if_false] at run
  obtain ⟨unscaled, undistributed⟩ := base.joined c w
  have alone : ∀ k es, [const c w] = [k] → factorsOf b = [.nary .sum es] → False := by
    intro k es _ sum
    exact undistributed c w es (by rw [sum])
  rw [joinFactors_ordered unscaled alone] at run
  obtain ⟨fs, hfs, run⟩ := bind_eq_ok.mp run
  have rising : KeysRise (const c w :: factorsOf b) := by
    obtain ⟨f, fs', factors⟩ := List.exists_cons_of_ne_nil base.some
    obtain ⟨k, key⟩ := orderKey_of_sorted hfs f (by simp [factors])
    have first : f.isConst = false := base.constFree f (by simp [factors])
    have rise := base.rising
    rw [factors] at rise ⊢
    exact rise.cons_const key first
  obtain rfl := sorted_of_keysRise rising hfs
  have made : r = .nary .product (const c w :: factorsOf b) := by
    split at run
    · next e single =>
      exact absurd (List.cons.inj single).2 base.some
    · cases run
      rfl
  subst made
  exact ⟨base.settled_scaled nonzero other rising, rfl, by simp [naryOp?], c, base.asMultiple_scaled c w⟩

end Base

end base

end ShapeRecovery.Expr
