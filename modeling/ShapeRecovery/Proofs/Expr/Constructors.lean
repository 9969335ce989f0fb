import ShapeRecovery.Expr.Cast
import ShapeRecovery.Proofs.Expr.Algebra
import ShapeRecovery.Proofs.Expr.Reading

namespace ShapeRecovery.Expr

variable {L : Loop → Prop} {w : Int} {ρ : Valuation}

/-- Every recurrence in `e`, at any depth and below any operator, is over a loop of `L`. -/
def Within (L : Loop → Prop) (e : Expr) : Prop := ∀ l ∈ e.loops, L l

section Within

private theorem loopsOfList_eq (es : List Expr) : loopsOfList es = es.flatMap loops := by
  induction es with
  | nil => rfl
  | cons e es ih =>
    rw [List.flatMap_cons, ← ih]
    rfl

@[simp] theorem within_const (v b : Int) : Within L (const v b) := List.forall_mem_nil L

@[simp] theorem within_unknown (s : Symbol) (b : Int) : Within L (unknown s b) := List.forall_mem_nil L

@[simp] theorem within_nary {op : Nary} {es : List Expr} :
    Within L (nary op es) ↔ ∀ e ∈ es, Within L e := by
  change (∀ l ∈ loopsOfList es, L l) ↔ _
  simp only [loopsOfList_eq, List.mem_flatMap]
  exact ⟨fun h e he l hl => h l ⟨e, he, hl⟩, fun h l ⟨e, he, hl⟩ => h e he l hl⟩

@[simp] theorem within_quotient {a b : Expr} :
    Within L (quotient a b) ↔ Within L a ∧ Within L b :=
  List.forall_mem_append

@[simp] theorem within_cast {kind : CastKind} {e : Expr} {b : Int} :
    Within L (cast kind e b) ↔ Within L e :=
  Iff.rfl

@[simp] theorem within_recurrence {a b : Expr} {l : Loop} :
    Within L (recurrence a b l) ↔ L l ∧ Within L a ∧ Within L b :=
  List.forall_mem_cons.trans (and_congr_right fun _ => List.forall_mem_append)

theorem BuiltOver.within {e : Expr} (built : BuiltOver (Within L) L e) : Within L e := by
  induction built with
  | const v b => exact within_const v b
  | leaf _ known => exact known
  | sum _ ih => exact within_nary.mpr ih
  | product _ ih => exact within_nary.mpr ih
  | recurrence known _ _ start step => exact within_recurrence.mpr ⟨known, start, step⟩

theorem Within.builtOver {e : Expr} (within : Within L e) (typed : HasBits e w) :
    BuiltOver (Within L) L e := by
  induction typed with
  | const => exact .const _ _
  | @nary op es _ _ _ ih =>
    have parts : ∀ e ∈ es, BuiltOver (Within L) L e :=
      fun e he => ih e he (within_nary.mp within e he)
    cases op with
    | sum => exact .sum parts
    | product => exact .product parts
    | _ => exact .leaf rfl within
  | recurrence _ _ start step =>
    obtain ⟨known, ha, hb⟩ := within_recurrence.mp within
    exact .recurrence known (start ha) (step hb)
  | _ => exact .leaf rfl within

theorem BuiltOver.weaken {A : Expr → Prop} {e : Expr} (built : BuiltOver A L e) :
    BuiltOver (fun _ => True) L e := by
  induction built with
  | const v b => exact .const v b
  | leaf whole _ => exact .leaf whole trivial
  | sum _ ih => exact .sum ih
  | product _ ih => exact .product ih
  | recurrence known _ _ start step => exact .recurrence known start step

end Within

/-- `r` is a value of `w` bits over loops of `L`, and `v` is the word that it stands for. -/
structure Stands (L : Loop → Prop) (ρ : Valuation) (w : Int) (v : ZMod (Word.modulus w))
    (r : Expr) : Prop where
  typed : HasBits r w
  within : Within L r
  value_eq : value w ρ r = v

/-- `run` has a result, which stands for `v`. -/
def Yields (L : Loop → Prop) (ρ : Valuation) (w : Int) (run : Except Fault Expr)
    (v : ZMod (Word.modulus w)) : Prop :=
  ∃ r, run = .ok r ∧ Stands L ρ w v r

/-- Operands of `w` bits over loops of `L`. -/
def Operands (L : Loop → Prop) (w : Int) (es : List Expr) : Prop :=
  ∀ e ∈ es, HasBits e w ∧ Within L e

theorem Operands.typed {es : List Expr} (ops : Operands L w es) : AllBits es w :=
  fun e he => (ops e he).1

theorem Operands.within {es : List Expr} (ops : Operands L w es) : ∀ e ∈ es, Within L e :=
  fun e he => (ops e he).2

/-- What stands for operands whose loops are in step has exactly their value. -/
theorem Same.stands {op : Nary} {gap : Gap} {es : List Expr} {r : Expr}
    (same : Same op w gap es [r]) (ops : Operands L w es) (inStep : InStep L ρ)
    (single : value w ρ (nary op [r]) = value w ρ r) :
    Stands L ρ w (value w ρ (nary op es)) r where
  typed := same.hasBits
  within := by
    have built := same.built_single fun e he => (ops e he).2.builtOver (ops e he).1
    exact built.within
  value_eq := by
    have built : ∀ e ∈ es, BuiltOver (fun _ => True) L e :=
      fun e he => ((ops e he).2.builtOver (ops e he).1).weaken
    have total := same.total ρ
    rwa [single, same.noGap L ρ built inStep, Int.cast_zero, add_zero] at total

theorem sumOf_yields (iw : Int) (inStep : InStep L ρ) {es : List Expr} (ops : Operands L w es)
    (some : es ≠ []) : Yields L ρ w (sumOf iw es) (es.map (value w ρ)).sum := by
  obtain ⟨r, hr, same⟩ := sumOf_spec iw some ops.typed
  exact ⟨r, hr, value_sum w ρ es ▸ same.stands ops inStep (by simp)⟩

theorem productOf_yields (iw : Int) (inStep : InStep L ρ) {es : List Expr} (ops : Operands L w es)
    (some : es ≠ []) : Yields L ρ w (productOf iw es) (es.map (value w ρ)).prod := by
  obtain ⟨r, hr, same⟩ := productOf_spec iw some ops.typed
  exact ⟨r, hr, value_product w ρ es ▸ same.stands ops inStep (by simp)⟩

/-- The product of nothing is one, at the default width. -/
theorem productOf_nil {iw : Int} (pos : 0 < iw) : Yields L ρ iw (productOf iw []) 1 := by
  refine ⟨_, (one_eq pos).symm ▸ rfl, hasBits_const_bmod pos 1, within_const _ _, ?_⟩
  simp

theorem negation_yields (iw : Int) (inStep : InStep L ρ) {e : Expr} (typed : HasBits e w)
    (within : Within L e) : Yields L ρ w (negation iw e) (-value w ρ e) := by
  have minusOne := hasBits_const_bmod typed.pos (-1)
  have ops : Operands L w [const ((-1 : Int).bmod (Word.modulus w)) w, e] := by
    simp [Operands, minusOne, typed, within]
  have product := productOf_yields iw inStep ops (by simp)
  have run : negation iw e = productOf iw [const ((-1 : Int).bmod (Word.modulus w)) w, e] := by
    simp only [negation, typed.width, ok_bind, Option.getD_some, ofInt_eq typed.pos]
  rw [run]
  simpa using product

theorem difference_yields (iw : Int) (inStep : InStep L ρ) {a b : Expr} (ha : HasBits a w)
    (hb : HasBits b w) (within : Within L a) (within' : Within L b) :
    Yields L ρ w (difference iw a b) (value w ρ a - value w ρ b) := by
  obtain ⟨n, hn, stands⟩ := negation_yields iw inStep hb within'
  have ops : Operands L w [a, n] := by
    simp [Operands, ha, within, stands.typed, stands.within]
  have sum := sumOf_yields iw inStep ops (by simp)
  have run : difference iw a b = sumOf iw [a, n] := by simp only [difference, hn, ok_bind]
  rw [run]
  simpa [stands.value_eq, sub_eq_add_neg] using sum

theorem recur_stands (l : Loop) (known : L l) {a b : Expr} (ha : HasBits a w) (hb : HasBits b w)
    (within : Within L a) (within' : Within L b) :
    Stands L ρ w (value w ρ a + value w ρ b * ρ.count l) (recur a b l) where
  typed := hasBits_recur l ha hb
  within := (builtOver_recur ha hb known (within.builtOver ha) (within'.builtOver hb)).within
  value_eq := value_recur l ha hb ρ

/-- The unsigned quotient of two words of `w` bits. -/
def quotientOf (ρ : Valuation) (w n d : Int) : Int :=
  if readUnsigned w d = 0 then ρ.overZero w (readUnsigned w n)
  else readUnsigned w n / readUnsigned w d

theorem meaning_quotient {a b : Expr} (ha : HasBits a w) (hb : HasBits b w) (ρ : Valuation) :
    (quotient a b).meaning ρ = quotientOf ρ w (a.meaning ρ) (b.meaning ρ) := by
  simp only [meaning, ha.bits, hb.bits, quotientOf]

/-- One is read as one: no word of a single bit is one. -/
private theorem readUnsigned_one (typed : HasBits (const 1 w) w) : readUnsigned w 1 = 1 := by
  have bounds := typed.const_inRange.2
  have double := Word.modulus_eq_double typed.pos
  exact Int.emod_eq_of_lt (by decide) (by omega)

theorem unsignedQuotient_yields (ρ : Valuation) {a b : Expr} (ha : HasBits a w) (hb : HasBits b w)
    (within : Within L a) (within' : Within L b) : Yields L ρ w (unsignedQuotient a b)
      ((quotientOf ρ w (a.meaning ρ) (b.meaning ρ) : Int) : ZMod (Word.modulus w)) := by
  have kept : Stands L ρ w
      ((quotientOf ρ w (a.meaning ρ) (b.meaning ρ) : Int) : ZMod (Word.modulus w))
      (quotient a b) :=
    ⟨.quotient ha hb, within_quotient.mpr ⟨within, within'⟩, by
      rw [value, meaning_quotient ha hb]⟩
  simp only [unsignedQuotient, ha.ne_uncomputable, hb.ne_uncomputable, decide_false, Bool.or_self,
    Bool.false_eq_true, if_false]
  split
  · next unit =>
    refine ⟨a, rfl, ha, within, ?_⟩
    cases b with
    | const v u =>
      obtain rfl := hb.const_bits
      obtain rfl : v = 1 := by simpa [isOne] using unit
      have reads : (1 : Int) % Word.modulus u = 1 := readUnsigned_one hb
      simp [quotientOf, meaning, value, readUnsigned, reads]
    | _ => simp [isOne] at unit
  · split
    · next n b d b' _ =>
      obtain rfl := ha.const_bits
      obtain rfl := hb.const_bits
      split
      · exact ⟨_, rfl, kept⟩
      · next nonzero =>
        have divides := Word.emod_ne_zero hb.pos hb.const_inRange nonzero
        simp only [Word.unsigned_eq hb.pos, ok_bind, if_neg divides, ofInt_eq hb.pos]
        refine ⟨_, rfl, hasBits_const_bmod hb.pos _, within_const _ _, ?_⟩
        simp [quotientOf, meaning, readUnsigned, divides]
    · exact ⟨_, rfl, kept⟩

section maximum

theorem mem_distinctOthers {e : Expr} {es seen : List Expr} :
    e ∈ distinctOthers es seen ↔ e ∈ seen ∨ e ∈ es ∧ e.isConst = false := by
  induction es generalizing seen with
  | nil => simp [distinctOthers]
  | cons f es ih =>
    unfold distinctOthers
    split
    · next skip =>
      rw [ih, List.mem_cons]
      constructor
      · exact Or.imp_right fun h => ⟨.inr h.1, h.2⟩
      · rintro (h | ⟨rfl | h, other⟩)
        · exact .inl h
        · exact .inl (by simpa [other] using skip)
        · exact .inr ⟨h, other⟩
    · next keep =>
      simp only [Bool.or_eq_true, not_or, Bool.not_eq_true] at keep
      rw [ih, List.mem_append, List.mem_singleton, List.mem_cons]
      constructor
      · rintro ((h | rfl) | h)
        · exact .inl h
        · exact .inr ⟨.inl rfl, keep.1⟩
        · exact .inr ⟨.inr h.1, h.2⟩
      · rintro (h | ⟨rfl | h, other⟩)
        · exact .inl (.inl h)
        · exact .inl (.inr rfl)
        · exact .inr ⟨h, other⟩

theorem isConst_of_constantsOf_nil {es : List Expr} (none : constantsOf es = []) :
    ∀ e ∈ es, e.isConst = false := by
  induction es with
  | nil => simp
  | cons e es ih =>
    cases e with
    | const => simp [constantsOf] at none
    | _ => simpa [constantsOf, isConst] using ih none

theorem mem_constantsOf {v : Int} {es : List Expr} :
    v ∈ constantsOf es ↔ ∃ b, const v b ∈ es := by
  induction es with
  | nil => simp [constantsOf]
  | cons e es ih => cases e <;> simp [constantsOf, ih, eq_comm, exists_or]

variable (signed : Bool) (ρ : Valuation) {es : List Expr}

/-- Constants of `w` bits compare as words. -/
theorem readConstants_eq (pos : 0 < w) (typed : AllBits es w) :
    (constantsOf es).mapM (readConstant signed w) = .ok ((constantsOf es).map (readAs signed w)) := by
  refine mapM_ok fun v hv => ?_
  obtain ⟨b, mem⟩ := mem_constantsOf.mp hv
  have inRange : Word.InRange v w := (typed _ mem).const_inRange
  cases signed with
  | true => simp [readConstant, readAs, readSigned, Word.bmod_of_inRange pos inRange]
  | false => simp [readConstant, readAs, readUnsigned, Word.unsigned_eq pos]

/-- Opening nested maxima keeps the greatest reading. -/
private theorem level_flatten (typed : AllBits es w) :
    Level ((flatten (if signed then .signedMax else .unsignedMax) es).map
      fun e => readAs signed w (e.meaning ρ)) (es.map fun e => readAs signed w (e.meaning ρ)) := by
  generalize named : (if signed = true then Nary.signedMax else Nary.unsignedMax) = op
  induction es using flatten_induction op with
  | nil => exact .of_mem_iff fun n => Iff.rfl
  | node gs es ih =>
    obtain ⟨here, others⟩ := AllBits.cons.mp typed
    obtain ⟨several, parts⟩ := HasBits.nary_iff.mp here
    have some : gs ≠ [] := List.ne_nil_of_length_pos (by omega)
    have opened := readAs_maximum signed ρ parts some
    rw [named] at opened
    simp only [flatten_nary, List.map_append, List.map_cons, opened]
    have whole := Level.greatest (List.map_eq_nil_iff.not.mpr some :
      gs.map (fun e => readAs signed w (e.meaning ρ)) ≠ [])
    exact whole.symm.append (ih others)
  | other e es apart ih =>
    rw [flatten_other apart]
    exact (show Level [_] [_] from .of_mem_iff fun n => Iff.rfl).append (ih (AllBits.cons.mp typed).2)

/-- The operands that a maximum keeps, and the constant that stands for the others. -/
private theorem level_kept {c : Expr} {v : Int} {vs : List Int}
    (constants : (constantsOf es).map (readAs signed w) = v :: vs)
    (top : readAs signed w (c.meaning ρ) = greatestOf (v :: vs)) :
    Level ((distinctOthers es [] ++ [c]).map fun e => readAs signed w (e.meaning ρ))
      (es.map fun e => readAs signed w (e.meaning ρ)) := by
  have constant (n : Int) : n ≤ greatestOf (v :: vs) ↔
      ∃ e ∈ es, e.isConst = true ∧ n ≤ readAs signed w (e.meaning ρ) := by
    have level := Level.greatest (List.cons_ne_nil v vs) n
    simp only [List.mem_singleton, exists_eq_left] at level
    rw [level, ← constants]
    simp only [List.mem_map, exists_exists_and_eq_and, mem_constantsOf]
    constructor
    · rintro ⟨u, ⟨b, mem⟩, le⟩
      exact ⟨_, mem, rfl, by simpa only [meaning] using le⟩
    · rintro ⟨e, mem, isConst, le⟩
      cases e with
      | const u b => exact ⟨u, ⟨b, mem⟩, by simpa only [meaning] using le⟩
      | _ => simp [Expr.isConst] at isConst
  intro n
  simp only [List.map_append, List.map_cons, List.map_nil, List.mem_append, List.mem_singleton,
    or_and_right, exists_or, exists_eq_left, List.mem_map, exists_exists_and_eq_and,
    mem_distinctOthers, List.not_mem_nil, false_or, top, constant]
  constructor
  · rintro (⟨e, ⟨mem, -⟩, le⟩ | ⟨e, mem, -, le⟩) <;> exact ⟨e, mem, le⟩
  · rintro ⟨e, mem, le⟩
    cases other : e.isConst with
    | false => exact .inl ⟨e, ⟨mem, other⟩, le⟩
    | true => exact .inr ⟨e, mem, other, le⟩

/-- Where there is no constant, a maximum keeps every operand. -/
private theorem level_others (none : constantsOf es = []) :
    Level ((distinctOthers es []).map fun e => readAs signed w (e.meaning ρ))
      (es.map fun e => readAs signed w (e.meaning ρ)) := by
  have others := isConst_of_constantsOf_nil none
  refine .of_mem_iff fun n => ?_
  simp only [List.mem_map, mem_distinctOthers, List.not_mem_nil, false_or]
  exact ⟨fun ⟨e, he, eq⟩ => ⟨e, he.1, eq⟩, fun ⟨e, he, eq⟩ => ⟨e, ⟨he, others e he⟩, eq⟩⟩

/-- A sorted maximum is read as the greatest reading. -/
private theorem Arranged.readAs_eq {r : Expr}
    (h : Arranged (if signed then .signedMax else .unsignedMax) es r) (typed : AllBits es w)
    (some : es ≠ []) :
    readAs signed w (r.meaning ρ) = greatestOf (es.map fun e => readAs signed w (e.meaning ρ)) := by
  rcases h with rfl | ⟨-, fs, perm, rfl⟩
  · simp [greatestOf]
  · have some' : fs ≠ [] := fun none => some (by simpa [none] using perm)
    rw [readAs_maximum signed ρ (typed.perm perm.symm) some']
    exact (Level.of_mem_iff fun n => (perm.map _).mem_iff).greatestOf_eq (by simpa)

theorem Operands.flatten {op : Nary} (ops : Operands L w es) : Operands L w (flatten op es) := by
  intro f hf
  refine ⟨allBits_flatten ops.typed f hf, ?_⟩
  rcases mem_flatten hf with ⟨mem, -⟩ | ⟨gs, mem, part⟩
  · exact ops.within f mem
  · exact within_nary.mp (ops.within _ mem) f part

/-- Sorted operands of a maximum stand for their greatest reading. -/
theorem ordered_maximum_yields (ops : Operands L w es) (some : es ≠ []) :
    Yields L ρ w (ordered (if signed then .signedMax else .unsignedMax) es)
      ((greatestOf (es.map fun e => readAs signed w (e.meaning ρ)) : Int) :
        ZMod (Word.modulus w)) := by
  obtain ⟨r, hr, arranged⟩ := ordered_arranged _ ops.typed.texts
  refine ⟨r, hr, arranged.hasBits ops.typed some, ?_, ?_⟩
  · rcases arranged with rfl | ⟨-, fs, perm, rfl⟩
    · exact ops.within r (by simp)
    · exact within_nary.mpr fun e he => ops.within e (perm.mem_iff.mp he)
  · rw [← arranged.readAs_eq signed ρ ops.typed some, cast_readAs]
    rfl

theorem maximum_yields (iw : Int) (ops : Operands L w es) (some : es ≠ []) :
    Yields L ρ w (maximum signed iw es)
      ((greatestOf (es.map fun e => readAs signed w (e.meaning ρ)) : Int) :
        ZMod (Word.modulus w)) := by
  have pos := ops.typed.pos some
  have opened := level_flatten signed ρ ops.typed
  simp only [maximum, ops.typed.no_uncomputable, Bool.false_eq_true, if_false]
  have fops : Operands L w (flatten (if signed then .signedMax else .unsignedMax) es) := ops.flatten
  have fsome : flatten (if signed then .signedMax else .unsignedMax) es ≠ [] :=
    flatten_ne_nil ops.typed some
  rw [← opened.greatestOf_eq (by simpa)]
  generalize flatten (if signed then .signedMax else .unsignedMax) es = flat at fops fsome ⊢
  have others : Operands L w (distinctOthers flat []) := fun e he =>
    fops e (by simpa using (mem_distinctOthers.mp he).imp_right And.left)
  simp only [commonWidth_eq iw fops.typed fsome, readConstants_eq signed pos fops.typed, ok_bind]
  cases constants : (constantsOf flat).map (readAs signed w) with
  | nil =>
    have level := level_others signed ρ (w := w) (List.map_eq_nil_iff.mp constants)
    have some' : distinctOthers flat [] ≠ [] := by
      obtain ⟨e, he⟩ := List.exists_mem_of_ne_nil _ fsome
      have other := isConst_of_constantsOf_nil (List.map_eq_nil_iff.mp constants) e he
      exact List.ne_nil_of_mem (mem_distinctOthers.mpr (.inr ⟨he, other⟩))
    rw [← level.greatestOf_eq (by simpa)]
    exact ordered_maximum_yields signed ρ others some'
  | cons v vs =>
    simp only [ofInt_eq pos, ok_bind]
    have top : readAs signed w
        ((const ((greatest v vs).bmod (Word.modulus w)) w).meaning ρ) = greatestOf (v :: vs) := by
      have among : greatestOf (v :: vs) ∈ (constantsOf flat).map (readAs signed w) := by
        rw [constants]
        exact greatestOf_mem (List.cons_ne_nil v vs)
      obtain ⟨u, -, hu⟩ := List.mem_map.mp among
      rw [meaning, readAs_bmod, show greatest v vs = greatestOf (v :: vs) from rfl, ← hu,
        readAs_readAs]
    have level := level_kept signed ρ constants top
    have kept : Operands L w
        (distinctOthers flat [] ++ [const ((greatest v vs).bmod (Word.modulus w)) w]) := by
      intro e he
      rcases List.mem_append.mp he with he | he
      · exact others e he
      · rw [List.mem_singleton.mp he]
        exact ⟨hasBits_const_bmod pos _, within_const _ _⟩
    rw [← level.greatestOf_eq (by simp)]
    exact ordered_maximum_yields signed ρ kept (by simp)

end maximum

/-- A cast of `v` bits to `bits` bits may change the width in its direction only. -/
def Admits : CastKind → Int → Int → Prop
  | .trunc, v, bits => 0 < bits ∧ bits ≤ v
  | _, v, bits => v ≤ bits

theorem checkDirection_ok {kind : CastKind} {v bits : Int} (admits : Admits kind v bits)
    (other : v ≠ bits) : checkDirection kind bits (some v) = .ok () := by
  cases kind <;> simp only [Admits] at admits <;> simp [checkDirection] <;> omega

theorem hasBits_cast {kind : CastKind} {e : Expr} {v bits : Int} (typed : HasBits e v)
    (admits : Admits kind v bits) (other : v ≠ bits) : HasBits (cast kind e bits) bits := by
  cases kind with
  | trunc => exact .narrow admits.1 (lt_of_le_of_ne admits.2 other.symm) typed
  | signExtend => exact .signExtend (lt_of_le_of_ne admits other) typed
  | zeroExtend => exact .zeroExtend (lt_of_le_of_ne admits other) typed

/-- Typed expressions with one case for all casts. -/
theorem HasBits.cast_induction {motive : ∀ (e : Expr) (w : Int), HasBits e w → Prop}
    (const : ∀ {v w : Int} (pos : 0 < w) (inRange : Word.InRange v w),
      motive (.const v w) w (.const pos inRange))
    (unknown : ∀ {s : Symbol} {w : Int} (pos : 0 < w), motive (.unknown s w) w (.unknown pos))
    (nary : ∀ {op : Nary} {es : List Expr} {w : Int} (several : 2 ≤ es.length) (parts : AllBits es w),
      (∀ e (he : e ∈ es), motive e w (parts e he)) → motive (.nary op es) w (.nary several parts))
    (quotient : ∀ {a b : Expr} {w : Int} (lhs : HasBits a w) (rhs : HasBits b w),
      motive a w lhs → motive b w rhs → motive (.quotient a b) w (.quotient lhs rhs))
    (cast : ∀ {kind : CastKind} {e : Expr} {v w : Int} (arg : HasBits e v) (admits : Admits kind v w)
      (other : v ≠ w), motive e v arg → motive (.cast kind e w) w (hasBits_cast arg admits other))
    (recurrence : ∀ {a b : Expr} {l : Loop} {w : Int} (start : HasBits a w) (step : HasBits b w),
      motive a w start → motive b w step → motive (.recurrence a b l) w (.recurrence start step))
    {e : Expr} {w : Int} (typed : HasBits e w) : motive e w typed := by
  induction typed with
  | const pos inRange => exact const pos inRange
  | unknown pos => exact unknown pos
  | nary several parts ih => exact nary several parts ih
  | quotient lhs rhs first second => exact quotient lhs rhs first second
  | narrow pos narrower arg ih =>
    exact cast arg (show Admits .trunc _ _ from ⟨pos, narrower.le⟩) narrower.ne' ih
  | signExtend wider arg ih => exact cast arg (show Admits .signExtend _ _ from wider.le) wider.ne ih
  | zeroExtend wider arg ih => exact cast arg (show Admits .zeroExtend _ _ from wider.le) wider.ne ih
  | recurrence start step first second => exact recurrence start step first second

/-- The word that a cast makes of a word of `w` bits. -/
def castOf : CastKind → Int → Int → Int
  | .trunc, _, v => v
  | .signExtend, w, v => readSigned w v
  | .zeroExtend, w, v => readUnsigned w v

theorem meaning_cast {e : Expr} (typed : HasBits e w) (kind : CastKind) (b : Int) (ρ : Valuation) :
    (cast kind e b).meaning ρ = castOf kind w (e.meaning ρ) := by
  cases kind <;> simp only [meaning, typed.bits, castOf]

/-- A cast to the width at hand changes nothing. -/
private theorem castOf_cast (kind : CastKind) (w v : Int) :
    ((castOf kind w v : Int) : ZMod (Word.modulus w)) = v := by
  cases kind <;> simp [castOf, readSigned, readUnsigned]

/-- A cast reads its operand as a word. -/
theorem castOf_congr {kind : CastKind} {v b : Int} {ρ ρ' : Valuation} {e f : Expr}
    (admits : Admits kind v b) (same : value v ρ e = value v ρ' f) :
    ((castOf kind v (e.meaning ρ) : Int) : ZMod (Word.modulus b)) =
      castOf kind v (f.meaning ρ') := by
  cases kind with
  | trunc =>
    have residue : e.meaning ρ ≡ f.meaning ρ' [ZMOD Word.modulus v] := readUnsigned_congr same
    have narrower : e.meaning ρ ≡ f.meaning ρ' [ZMOD Word.modulus b] :=
      residue.of_dvd (by exact_mod_cast Word.modulus_dvd admits.2)
    exact (ZMod.intCast_eq_intCast_iff _ _ _).mpr narrower
  | signExtend => simp only [castOf, readSigned_congr same]
  | zeroExtend => simp only [castOf, readUnsigned_congr same]

private theorem inRange_of_le {u v n : Int} (le : u ≤ v) (h : Word.InRange n u) : Word.InRange n v := by
  have wider := Nat.le_of_dvd (Word.modulus_pos _) (Word.modulus_dvd (Int.sub_le_sub_right le 1))
  have bounds : -(Word.modulus (u - 1) : Int) ≤ n ∧ n < Word.modulus (u - 1) := h
  constructor <;> omega

/-- Of two casts of one kind the inner one makes no difference. -/
private theorem castOf_castOf {kind : CastKind} {u v b n : Int} (pos : 0 < u) (fits : Admits kind u v)
    (admits : Admits kind v b) :
    ((castOf kind v (castOf kind u n) : Int) : ZMod (Word.modulus b)) = castOf kind u n := by
  cases kind with
  | trunc => rfl
  | signExtend =>
    have narrow := inRange_of_le fits (Word.inRange_bmod pos n)
    have wide : 0 < v := pos.trans_le fits
    simp only [castOf, readSigned, Word.bmod_of_inRange wide narrow]
  | zeroExtend =>
    have wider := Nat.le_of_dvd (Word.modulus_pos _) (Word.modulus_dvd fits)
    have low := Int.emod_nonneg n (Int.natCast_ne_zero.mpr (Word.modulus_pos u).ne')
    have high := Int.emod_lt_of_pos n (Int.natCast_pos.mpr (Word.modulus_pos u))
    simp only [castOf, readUnsigned]
    rw [Int.emod_eq_of_lt low (by omega)]

section convert

variable {kind : CastKind} {b v : Int}

theorem unchanged_stands {e : Expr} (typed : HasBits e b) (within : Within L e) :
    Stands L ρ b ((castOf kind b (e.meaning ρ) : Int) : ZMod (Word.modulus b)) e :=
  ⟨typed, within, (castOf_cast kind b _).symm⟩

theorem cast_stands {e : Expr} (typed : HasBits e v) (within : Within L e)
    (admits : Admits kind v b) (other : v ≠ b) :
    Stands L ρ b ((castOf kind v (e.meaning ρ) : Int) : ZMod (Word.modulus b)) (cast kind e b) :=
  ⟨hasBits_cast typed admits other, within_cast.mpr within, by rw [value, meaning_cast typed]⟩

private theorem convert_const {n : Int} (pos : 0 < v) (inRange : Word.InRange n v)
    (admits : Admits kind v b) : Yields L ρ b (convert kind b (const n v))
      ((castOf kind v n : Int) : ZMod (Word.modulus b)) := by
  have typed : HasBits (const n v) v := .const pos inRange
  have wide : 0 < b := by
    cases kind <;> simp only [Admits] at admits <;> omega
  have folded (m : Int) (same : (m : ZMod (Word.modulus b)) = castOf kind v n) :
      Stands L ρ b ((castOf kind v n : Int) : ZMod (Word.modulus b))
        (const (m.bmod (Word.modulus b)) b) :=
    ⟨hasBits_const_bmod wide m, within_const _ _, by simpa using same⟩
  simp only [convert]
  by_cases same : v = b
  · subst same
    have kept : Stands L ρ v ((castOf kind v ((const n v).meaning ρ) : Int) :
        ZMod (Word.modulus v)) (const n v) := unchanged_stands typed (within_const n v)
    exact ⟨_, if_pos rfl, by simpa only [meaning] using kept⟩
  · simp only [if_neg same, checkDirection_ok admits same, Word.unsigned_eq pos, ok_bind,
      ofInt_eq wide]
    split
    · next zero =>
      subst zero
      exact ⟨_, rfl, folded _ rfl⟩
    · next other =>
      refine ⟨_, rfl, folded _ ?_⟩
      cases kind with
      | trunc => rfl
      | signExtend => rw [castOf, readSigned, Word.bmod_of_inRange pos inRange]
      | zeroExtend => exact absurd rfl other

/-- What is no constant and no cast is converted by one cast. -/
theorem convert_whole {e : Expr} (typed : HasBits e v) (within : Within L e)
    (admits : Admits kind v b) (step : convert kind b e = (do
      let w ← e.width
      if w = some b then return e
      checkDirection kind b w
      return cast kind e b)) :
    Yields L ρ b (convert kind b e)
      ((castOf kind v (e.meaning ρ) : Int) : ZMod (Word.modulus b)) := by
  rw [step, typed.width, ok_bind]
  by_cases same : v = b
  · subst same
    exact ⟨e, if_pos rfl, unchanged_stands typed within⟩
  · simp only [Option.some.injEq, if_neg same, checkDirection_ok admits same]
    exact ⟨_, rfl, cast_stands typed within admits same⟩

/-- A cast below is kept, or makes way if it is of the same kind. -/
private theorem convert_cast {kind' : CastKind} {arg : Expr} {u : Int} (typed : HasBits arg u)
    (within : Within L arg) (fits : Admits kind' u v) (other : u ≠ v) (admits : Admits kind v b)
    (below : Admits kind u b → Yields L ρ b (convert kind b arg)
      ((castOf kind u (arg.meaning ρ) : Int) : ZMod (Word.modulus b))) :
    Yields L ρ b (convert kind b (cast kind' arg v))
      ((castOf kind v ((cast kind' arg v).meaning ρ) : Int) : ZMod (Word.modulus b)) := by
  have whole := hasBits_cast typed fits other
  have within' : Within L (cast kind' arg v) := within_cast.mpr within
  by_cases same : v = b
  · subst same
    exact ⟨_, by simp only [convert, if_true, pure_eq_ok], unchanged_stands whole within'⟩
  · by_cases alike : kind' = kind
    · subst alike
      have through : Admits kind' u b := by
        cases kind' <;> simp only [Admits] at * <;> omega
      obtain ⟨r, hr, stands⟩ := below through
      rw [meaning_cast typed, castOf_castOf typed.pos fits admits]
      refine ⟨r, ?_, stands⟩
      simp only [convert, if_neg same, checkDirection_ok admits same, ok_bind, if_pos, hr]
    · refine ⟨_, ?_, cast_stands whole within' admits same⟩
      simp only [convert, if_neg same, checkDirection_ok admits same, ok_bind, if_neg alike]
      rfl

theorem convert_yields (ρ : Valuation) {e : Expr} (typed : HasBits e v) (within : Within L e)
    (admits : Admits kind v b) : Yields L ρ b (convert kind b e)
      ((castOf kind v (e.meaning ρ) : Int) : ZMod (Word.modulus b)) := by
  induction typed using HasBits.cast_induction with
  | const pos inRange => simpa only [meaning] using convert_const pos inRange admits
  | cast arg fits other ih =>
    have inner := within_cast.mp within
    exact convert_cast arg inner fits other admits (ih inner)
  | unknown pos => exact convert_whole (.unknown pos) within admits rfl
  | nary several parts => exact convert_whole (.nary several parts) within admits rfl
  | quotient lhs rhs => exact convert_whole (.quotient lhs rhs) within admits rfl
  | recurrence start step => exact convert_whole (.recurrence start step) within admits rfl

end convert

end ShapeRecovery.Expr
