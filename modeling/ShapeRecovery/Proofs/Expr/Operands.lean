import ShapeRecovery.Proofs.Expr.Weight
import ShapeRecovery.Proofs.Outcome
import ShapeRecovery.Proofs.Word

namespace ShapeRecovery.Expr

/-- All of `es` are values of `w` bits. -/
def AllBits (es : List Expr) (w : Int) : Prop := ∀ e ∈ es, HasBits e w

instance (es : List Expr) (w : Int) : Decidable (AllBits es w) :=
  inferInstanceAs (Decidable (∀ e ∈ es, HasBits e w))

namespace AllBits

variable {es fs : List Expr} {e : Expr} {w : Int}

@[simp] theorem nil : AllBits [] w := by simp [AllBits]

@[simp] theorem cons : AllBits (e :: es) w ↔ HasBits e w ∧ AllBits es w := by simp [AllBits]

@[simp] theorem append : AllBits (es ++ fs) w ↔ AllBits es w ∧ AllBits fs w := by
  simp [AllBits, or_imp, forall_and]

theorem perm (h : es.Perm fs) (typed : AllBits es w) : AllBits fs w :=
  fun e he => typed e (h.mem_iff.mpr he)

theorem pos (typed : AllBits es w) (some : es ≠ []) : 0 < w := by
  obtain ⟨e, he⟩ := List.exists_mem_of_ne_nil es some
  exact (typed e he).pos

end AllBits

theorem HasBits.nary_iff {op : Nary} {es : List Expr} {w : Int} :
    HasBits (Expr.nary op es) w ↔ 2 ≤ es.length ∧ AllBits es w :=
  ⟨fun h => by cases h with | nary several parts => exact ⟨several, parts⟩, fun h => .nary h.1 h.2⟩

theorem HasBits.recurrence_iff {a b : Expr} {l : Loop} {w : Int} :
    HasBits (Expr.recurrence a b l) w ↔ HasBits a w ∧ HasBits b w :=
  ⟨fun h => by cases h with | recurrence start step => exact ⟨start, step⟩,
    fun h => .recurrence h.1 h.2⟩

theorem HasBits.const_bits {v b w : Int} (h : HasBits (.const v b) w) : b = w := by
  cases h; rfl

theorem HasBits.const_inRange {v b w : Int} (h : HasBits (.const v b) w) : Word.InRange v w := by
  cases h; assumption

theorem HasBits.ne_uncomputable {e : Expr} {w : Int} (h : HasBits e w) : e ≠ uncomputable := by
  rintro rfl
  cases h

/-- A value has one width. -/
theorem HasBits.bits_unique {e : Expr} {v w : Int} (h : HasBits e v) (k : HasBits e w) : v = w := by
  have heq := h.width.symm.trans k.width
  simpa using heq

theorem AllBits.no_uncomputable {es : List Expr} {w : Int} (typed : AllBits es w) :
    es.contains uncomputable = false := by
  simp only [List.contains_eq_mem, decide_eq_false_iff_not]
  intro h
  exact (typed _ h).ne_uncomputable rfl

theorem commonWidth_eq {es : List Expr} {w : Int} (iw : Int) (typed : AllBits es w)
    (some : es ≠ []) : commonWidth iw es = .ok w := by
  cases es with
  | nil => exact absurd rfl some
  | cons e es => simp [commonWidth, (typed e (by simp)).width]

/-- The first operand tells the width. -/
theorem HasBits.leads {e : Expr} {w iw : Int} {es : List Expr} (typed : HasBits e w) :
    commonWidth iw (e :: es) = .ok w := by
  simp [commonWidth, typed.width]

theorem ofInt_eq {w : Int} (pos : 0 < w) (v : Int) :
    ofInt v w = .ok (const (v.bmod (Word.modulus w)) w) := by
  simp [ofInt, Word.signed_eq pos]

theorem hasBits_const_bmod {w : Int} (pos : 0 < w) (v : Int) :
    HasBits (const (v.bmod (Word.modulus w)) w) w :=
  .const pos (Word.inRange_bmod pos v)

theorem zero_eq {w : Int} (pos : 0 < w) : zero w = .ok (const 0 w) := by
  simp [zero, ofInt_eq pos]

theorem one_eq {w : Int} (pos : 0 < w) :
    one w = .ok (const ((1 : Int).bmod (Word.modulus w)) w) :=
  ofInt_eq pos 1

theorem hasBits_zero {w : Int} (pos : 0 < w) : HasBits (const 0 w) w := by
  simpa using hasBits_const_bmod pos 0

/-- Expressions that sums and products treat as a whole. -/
def isLeaf : Expr → Bool
  | const .. | nary .sum _ | nary .product _ | recurrence .. => false
  | _ => true

/-- Typed expressions by what sums and products see of them. -/
theorem HasBits.parts_induction {motive : ∀ (e : Expr) (w : Int), HasBits e w → Prop}
    (const : ∀ {v w : Int} (pos : 0 < w) (inRange : Word.InRange v w),
      motive (.const v w) w (.const pos inRange))
    (sum : ∀ {es : List Expr} {w : Int} (several : 2 ≤ es.length) (parts : AllBits es w),
      (∀ e (he : e ∈ es), motive e w (parts e he)) → motive (.sum es) w (.nary several parts))
    (product : ∀ {es : List Expr} {w : Int} (several : 2 ≤ es.length) (parts : AllBits es w),
      (∀ e (he : e ∈ es), motive e w (parts e he)) → motive (.product es) w (.nary several parts))
    (recurrence : ∀ {a b : Expr} {l : Loop} {w : Int} (start : HasBits a w) (step : HasBits b w),
      motive a w start → motive b w step → motive (.recurrence a b l) w (.recurrence start step))
    (leaf : ∀ {e : Expr} {w : Int} (typed : HasBits e w), e.isLeaf = true → motive e w typed)
    {e : Expr} {w : Int} (typed : HasBits e w) : motive e w typed := by
  induction typed with
  | const pos inRange => exact const pos inRange
  | @nary op es w several parts ih =>
    cases op with
    | sum => exact sum several parts ih
    | product => exact product several parts ih
    | signedMax => exact leaf _ rfl
    | unsignedMax => exact leaf _ rfl
  | recurrence start step first second => exact recurrence start step first second
  | unknown pos => exact leaf _ rfl
  | quotient lhs rhs => exact leaf _ rfl
  | narrow pos narrower arg => exact leaf _ rfl
  | signExtend wider arg => exact leaf _ rfl
  | zeroExtend wider arg => exact leaf _ rfl

/-- `e` is built by sums, products and recurrences from constants and from leaves that satisfy `A`,
over loops that satisfy `L`. -/
inductive BuiltOver (A : Expr → Prop) (L : Loop → Prop) : Expr → Prop
  | const (v w : Int) : BuiltOver A L (.const v w)
  | leaf {e : Expr} (whole : e.isLeaf = true) (known : A e) : BuiltOver A L e
  | sum {es : List Expr} (parts : ∀ e ∈ es, BuiltOver A L e) : BuiltOver A L (.nary .sum es)
  | product {es : List Expr} (parts : ∀ e ∈ es, BuiltOver A L e) : BuiltOver A L (.nary .product es)
  | recurrence {a b : Expr} {l : Loop} (known : L l) (start : BuiltOver A L a)
      (step : BuiltOver A L b) : BuiltOver A L (.recurrence a b l)

namespace BuiltOver

variable {A : Expr → Prop} {L : Loop → Prop}

theorem sum_iff {es : List Expr} :
    BuiltOver A L (.nary .sum es) ↔ ∀ e ∈ es, BuiltOver A L e :=
  ⟨fun h => by cases h with
    | leaf whole _ => cases whole
    | sum parts => exact parts, .sum⟩

theorem product_iff {es : List Expr} :
    BuiltOver A L (.nary .product es) ↔ ∀ e ∈ es, BuiltOver A L e :=
  ⟨fun h => by cases h with
    | leaf whole _ => cases whole
    | product parts => exact parts, .product⟩

theorem recurrence_iff {a b : Expr} {l : Loop} :
    BuiltOver A L (.recurrence a b l) ↔ L l ∧ BuiltOver A L a ∧ BuiltOver A L b :=
  ⟨fun h => by cases h with
    | leaf whole _ => cases whole
    | recurrence known start step => exact ⟨known, start, step⟩, fun h => .recurrence h.1 h.2.1 h.2.2⟩

end BuiltOver

/-- Opening the nested nodes of an operator keeps what the operands are made of. -/
theorem builtOver_flatten {A : Expr → Prop} {L : Loop → Prop} {op : Nary}
    (ring : op = .sum ∨ op = .product) {es : List Expr} (h : ∀ e ∈ es, BuiltOver A L e) :
    ∀ e ∈ flatten op es, BuiltOver A L e := by
  intro e mem
  rcases mem_flatten mem with ⟨mem, -⟩ | ⟨fs, mem, part⟩
  · exact h e mem
  · have node := h _ mem
    rcases ring with rfl | rfl
    · exact BuiltOver.sum_iff.mp node e part
    · exact BuiltOver.product_iff.mp node e part

theorem allBits_flatten {op : Nary} {es : List Expr} {w : Int} (typed : AllBits es w) :
    AllBits (flatten op es) w := by
  intro e mem
  rcases mem_flatten mem with ⟨mem, -⟩ | ⟨fs, mem, part⟩
  · exact typed e mem
  · exact (HasBits.nary_iff.mp (typed _ mem)).2 e part

theorem length_le_flatten {op : Nary} {es : List Expr} {w : Int} (typed : AllBits es w) :
    es.length ≤ (flatten op es).length := by
  induction es using flatten_induction op with
  | nil => exact le_rfl
  | node fs es ih =>
    obtain ⟨here, others⟩ := AllBits.cons.mp typed
    have several := (HasBits.nary_iff.mp here).1
    have rest := ih others
    rw [flatten_nary, List.length_cons, List.length_append]
    omega
  | other e es apart ih => simpa [flatten_other apart] using ih (AllBits.cons.mp typed).2

theorem flatten_ne_nil {op : Nary} {es : List Expr} {w : Int} (typed : AllBits es w)
    (some : es ≠ []) : flatten op es ≠ [] := by
  have h := @length_le_flatten op es w typed
  have k := List.length_pos_of_ne_nil some
  exact List.ne_nil_of_length_pos (k.trans_le h)

theorem weightSum_flatten {es : List Expr} {w : Int} (typed : AllBits es w) :
    weightSum (flatten .sum es) = weightSum es := by
  induction es using flatten_induction .sum with
  | nil => rfl
  | node fs es ih =>
    obtain ⟨here, others⟩ := AllBits.cons.mp typed
    rw [flatten_nary, weightSum_append, ih others, weightSum, weight_sum (HasBits.nary_iff.mp here).1]
  | other e es apart ih =>
    rw [flatten_other apart, weightSum, weightSum, ih (AllBits.cons.mp typed).2]

theorem weightProduct_flatten {es : List Expr} {w : Int} (typed : AllBits es w) :
    weightProduct (flatten .product es) = weightProduct es := by
  induction es using flatten_induction .product with
  | nil => rfl
  | node fs es ih =>
    obtain ⟨here, others⟩ := AllBits.cons.mp typed
    rw [flatten_nary, weightProduct_append, ih others, weightProduct,
      weight_product (HasBits.nary_iff.mp here).1]
  | other e es apart ih =>
    rw [flatten_other apart, weightProduct, weightProduct, ih (AllBits.cons.mp typed).2]

end ShapeRecovery.Expr
