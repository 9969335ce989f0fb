import ShapeRecovery.Proofs.Expr.CanonicalForm
import ShapeRecovery.Proofs.Expr.OperandOrder

namespace ShapeRecovery.Expr

/-- No recurrence occurs in `e`. -/
abbrev LoopFree (e : Expr) : Prop := Within (fun _ => False) e

variable {add mul : Build} {addFits mulFits : Check} {es : List Expr} {e r a b : Expr} {op : Nary}
  {v w iw : Int} {n : Nat}

theorem LoopFree.still (free : LoopFree e) : e.isRecurrence = false := by
  cases e with
  | recurrence a b l => exact absurd (within_recurrence.mp free).1 not_false
  | _ => rfl

theorem LoopFree.occurs (free : LoopFree e) {f : Expr} (inside : Occurs f e) : LoopFree f := by
  induction inside with
  | here => exact free
  | operand part _ ih => exact ih ((hereditary_within 0 fun _ => False).below free _ part)

theorem loopFree_flatten (op : Nary) (free : ∀ e ∈ es, LoopFree e) :
    ∀ e ∈ flatten op es, LoopFree e := by
  intro e mem
  rcases mem_flatten mem with ⟨mem, -⟩ | ⟨fs, mem, part⟩
  · exact free e mem
  · exact within_nary.mp (free _ mem) e part

section fits

theorem recurrences_nil {t : Terms} (free : ∀ e ∈ es, LoopFree e) (run : Terms.ofList es = .ok t) :
    t.recurrences = [] := by
  have totals := Terms.totals_ofList run
  refine List.eq_nil_iff_forall_not_mem.mpr fun ⟨l, ps⟩ mem => ?_
  obtain ⟨some, -⟩ := (totals.recurrences l ps).mp mem
  refine some (List.filterMap_eq_nil_iff.mpr fun e he => ?_)
  have still := (free e he).still
  cases e with
  | recurrence a b m => cases still
  | _ => rfl

theorem checkAfter_eq_true {α : Type} {x : Except Fault α} {f : α → Bool} :
    checkAfter x f = true ↔ ∀ a, x = .ok a → f a = true := by
  cases x <;> simp [checkAfter]

private theorem sumStepFits_of_loopFree (free : ∀ e ∈ es, LoopFree e) :
    sumStepFits add mul addFits iw es = true := by
  refine checkAfter_eq_true.mpr fun w _ => checkAfter_eq_true.mpr fun t terms =>
    checkAfter_eq_true.mpr fun like collected => ?_
  have none := recurrences_nil (loopFree_flatten .sum free) terms
  obtain ⟨c, head, scaled, merged, -, -, -, hmerged, rfl⟩ := collectLike_cases collected
  rw [none] at hmerged
  cases hmerged
  simp [none, joinLikeFits]

private theorem productStepFits_of_loopFree (some : es ≠ []) (typed : AllBits es w)
    (free : ∀ e ∈ es, LoopFree e)
    (products : ∀ k e, HasBits k w → LoopFree k → HasBits e w → LoopFree e → mulFits [k, e] = true ∧
      ∀ r, mul [k, e] = .ok r → LoopFree r)
    (sums : ∀ fs, (∀ f ∈ fs, LoopFree f) → addFits fs = true) :
    productStepFits mul addFits mulFits iw es = true := by
  have flat := loopFree_flatten .product free
  have flat_typed : AllBits (flatten .product es) w := allBits_flatten typed
  have width := commonWidth_eq iw flat_typed (flatten_ne_nil typed some)
  obtain ⟨c, head, hc, hhead, same, -⟩ := productStep_eq mul mul iw some typed
  have origin := constantFactor_run (.inl rfl) hc
  simp only [productStepFits, width, hc, hhead, checkAfter_ok, Bool.or_eq_true]
  by_cases trivial : c = 0 ∨ ((flatten .product es).filter fun o => !o.isConst).isEmpty = true
  · left
    simpa using trivial
  right
  have head_free : ∀ k ∈ head, LoopFree k := by
    intro k hk
    rcases constantHead_run origin hhead with rfl | ⟨-, rfl⟩
    · simp at hk
    · rw [List.mem_singleton.mp hk]
      exact within_const c w
  have others_free : ∀ f ∈ (flatten .product es).filter fun o => !o.isConst, LoopFree f := fun f hf =>
    flat f (List.mem_of_mem_filter hf)
  have unscaled : scalable? (head ++ (flatten .product es).filter fun o => !o.isConst) = none :=
    scalable_none (List.forall_mem_append.mpr
      ⟨fun k hk => (head_free k hk).still, fun f hf => (others_free f hf).still⟩)
  simp only [joinFactorsFit, unscaled]
  split
  · next k ts others =>
    rw [others] at same others_free
    obtain ⟨front, rest⟩ := AllBits.append.mp same.typed
    obtain ⟨-, parts⟩ := HasBits.nary_iff.mp (rest (.nary .sum ts) (by simp))
    have each := fun e he => products k e (front k (by simp)) (head_free k (by simp)) (parts e he)
      (within_nary.mp (others_free (.nary .sum ts) (by simp)) e he)
    refine Bool.and_eq_true_iff.mpr ⟨List.all_eq_true.mpr fun e he => (each e he).1, ?_⟩
    refine checkAfter_eq_true.mpr fun terms multiplied => sums terms fun t ht => ?_
    obtain ⟨e, he, made⟩ := distribute_mem multiplied t ht
    exact (each e he).2 t made
  · rfl

theorem loopFree_productWithin (some : es ≠ []) (typed : AllBits es w) (free : ∀ e ∈ es, LoopFree e)
    (run : productWithin iw n es = .ok r) : LoopFree r :=
  (hereditary_within iw _).product some typed free (productOf_of_within some typed run)

private theorem loopFree_sumWithin (some : es ≠ []) (typed : AllBits es w) (free : ∀ e ∈ es, LoopFree e)
    (run : sumWithin iw n es = .ok r) : LoopFree r :=
  (hereditary_within iw _).sum some typed free (sumOf_of_within some typed run)

/-- No steps of recurrences cancel where there are none. -/
theorem fitsWithin_of_loopFree (w iw : Int) (n : Nat) :
    (∀ es, (∀ e ∈ es, LoopFree e) → sumFitsWithin iw n es = true) ∧
      ∀ es, es ≠ [] → AllBits es w → (∀ e ∈ es, LoopFree e) → productFitsWithin iw n es = true := by
  induction n with
  | zero => exact ⟨fun _ _ => rfl, fun _ _ _ _ => rfl⟩
  | succ n ih =>
    obtain ⟨sums, products⟩ := ih
    refine ⟨fun es free => sumStepFits_of_loopFree free, fun es some typed free => ?_⟩
    refine productStepFits_of_loopFree some typed free (fun k e typed free typed' free' => ?_) sums
    have both : AllBits [k, e] w := by simpa using ⟨typed, typed'⟩
    have both' : ∀ f ∈ [k, e], LoopFree f := by simpa using ⟨free, free'⟩
    exact ⟨products _ (by simp) both both', fun r run => loopFree_productWithin (by simp) both both' run⟩

end fits

/-- A canonical value of `w` bits in which no recurrence occurs and all symbols have valid names. -/
structure Plain (w : Int) (e : Expr) : Prop where
  proper : Proper w e
  settled : Settled e
  free : LoopFree e

namespace Plain

theorem typed (plain : Plain w e) : HasBits e w := plain.proper.typed

theorem pos (plain : Plain w e) : 0 < w := plain.typed.pos

theorem allBits (plain : ∀ e ∈ es, Plain w e) : AllBits es w := fun e he => (plain e he).typed

theorem allProper (plain : ∀ e ∈ es, Plain w e) : AllProper w es := fun e he => (plain e he).proper

theorem const (pos : 0 < w) (run : ofInt v w = .ok r) : Plain w r := by
  refine ⟨proper_ofInt pos run, settled_ofInt run, ?_⟩
  cases (ofInt_eq pos v).symm.trans run
  exact within_const _ w

theorem unknown {s : Symbol} (named : Text.isName s.name = true) (pos : 0 < w) :
    Plain w (.unknown s w) :=
  ⟨⟨.unknown pos, named_unknown.mpr named⟩, .unknown s w, within_unknown s w⟩

theorem operandsFit (plain : Plain w (.nary op es)) : OperandsFit op es := by
  cases plain.settled with
  | nary fit _ _ => exact fit

theorem parts (plain : Plain w (.nary op es)) : ∀ e ∈ es, Plain w e := fun e he =>
  ⟨⟨(HasBits.nary_iff.mp plain.typed).2 e he, named_nary.mp plain.proper.named e he⟩,
    plain.settled.operands e he, within_nary.mp plain.free e he⟩

theorem sumWithin (some : es ≠ []) (plain : ∀ e ∈ es, Plain w e)
    (run : Expr.sumWithin iw n es = .ok r) : Plain w r := by
  have free := fun e he => (plain e he).free
  have fits := (fitsWithin_of_loopFree w iw n).1 es free
  exact ⟨(within_anyOrder w iw n).1.proper some (allProper plain) run,
    (within_settled iw n).1 es r (fun e he => (plain e he).settled) fits run,
    loopFree_sumWithin some (allBits plain) free run⟩

theorem productWithin (some : es ≠ []) (plain : ∀ e ∈ es, Plain w e)
    (run : Expr.productWithin iw n es = .ok r) : Plain w r := by
  have free := fun e he => (plain e he).free
  have fits := (fitsWithin_of_loopFree w iw n).2 es some (allBits plain) free
  exact ⟨(within_anyOrder w iw n).2.proper some (allProper plain) run,
    (within_settled iw n).2 es r (fun e he => (plain e he).settled) fits run,
    loopFree_productWithin some (allBits plain) free run⟩

theorem flatten (op : Nary) (plain : ∀ e ∈ es, Plain w e) :
    ∀ e ∈ flatten op es, Plain w e ∧ e.naryOp? ≠ Option.some op := fun e he =>
  have settled := settled_flatten op (fun e he => (plain e he).settled) e he
  ⟨⟨proper_flatten op (allProper plain) e he, settled.1,
    loopFree_flatten op (fun e he => (plain e he).free) e he⟩, settled.2⟩

end Plain

/-- The expressions of `w` bits that the constructors reach from constants and unknowns alone. The
product of nothing is a constant. -/
inductive Assembled (iw : Int) : Expr → Int → Prop
  | const {v w : Int} {r : Expr} (pos : 0 < w) (run : ofInt v w = .ok r) : Assembled iw r w
  | unknown {s : Symbol} {w : Int} (named : Text.isName s.name = true) (pos : 0 < w) :
      Assembled iw (.unknown s w) w
  | sum {es : List Expr} {w : Int} {r : Expr} (some : es ≠ []) (parts : ∀ e ∈ es, Assembled iw e w)
      (run : sumOf iw es = .ok r) : Assembled iw r w
  | product {es : List Expr} {w : Int} {r : Expr} (some : es ≠ [])
      (parts : ∀ e ∈ es, Assembled iw e w) (run : productOf iw es = .ok r) : Assembled iw r w
  | negation {e : Expr} {w : Int} {r : Expr} (arg : Assembled iw e w) (run : negation iw e = .ok r) :
      Assembled iw r w
  | difference {a b : Expr} {w : Int} {r : Expr} (lhs : Assembled iw a w) (rhs : Assembled iw b w)
      (run : difference iw a b = .ok r) : Assembled iw r w
  | maximum {signed : Bool} {es : List Expr} {w : Int} {r : Expr} (some : es ≠ [])
      (parts : ∀ e ∈ es, Assembled iw e w) (run : maximum signed iw es = .ok r) : Assembled iw r w
  | quotient {a b : Expr} {w : Int} {r : Expr} (lhs : Assembled iw a w) (rhs : Assembled iw b w)
      (run : unsignedQuotient a b = .ok r) : Assembled iw r w
  | cast {kind : CastKind} {e : Expr} {v w : Int} {r : Expr} (arg : Assembled iw e v)
      (admits : Admits kind v w) (run : convert kind w e = .ok r) : Assembled iw r w

namespace Plain

theorem negation (plain : Plain w e) (run : Expr.negation iw e = .ok r) : Plain w r := by
  obtain ⟨k, hk, run⟩ := negation_run plain.typed run
  exact productWithin (by simp) (by simpa using ⟨const plain.pos hk, plain⟩) run

theorem difference (lhs : Plain w a) (rhs : Plain w b) (run : Expr.difference iw a b = .ok r) :
    Plain w r := by
  obtain ⟨n, hn, run⟩ := bind_eq_ok.mp run
  exact sumWithin (by simp) (by simpa using ⟨lhs, rhs.negation hn⟩) run

theorem maximum {signed : Bool} (some : es ≠ []) (plain : ∀ e ∈ es, Plain w e)
    (run : Expr.maximum signed iw es = .ok r) : Plain w r := by
  have typed := allBits plain
  obtain ⟨r', run', bits⟩ := (maximum_yields signed default iw typed.operands some).typed
  cases run.symm.trans run'
  exact ⟨⟨bits, (hereditary_named iw).maximum some typed (allProper plain).named run⟩,
    settled_maximum (flatten_ne_nil typed some) (fun e he => (plain e he).settled) run,
    (hereditary_within iw _).maximum some typed (fun e he => (plain e he).free) run⟩

theorem quotient (lhs : Plain w a) (rhs : Plain w b) (run : unsignedQuotient a b = .ok r) :
    Plain w r := by
  obtain ⟨r', run', bits⟩ := unsignedQuotient_typed lhs.typed rhs.typed
  cases run.symm.trans run'
  have named := (hereditary_named w).quotient lhs.typed rhs.typed lhs.proper.named rhs.proper.named run
  exact ⟨⟨bits, named⟩,
    settled_unsignedQuotient lhs.settled rhs.settled run,
    (hereditary_within w _).quotient lhs.typed rhs.typed lhs.free rhs.free run⟩

theorem cast {kind : CastKind} (plain : Plain v e) (admits : Admits kind v w)
    (run : convert kind w e = .ok r) : Plain w r := by
  obtain ⟨r', run', bits⟩ := convert_typed plain.typed admits
  cases run.symm.trans run'
  have named := (hereditary_named w).cast plain.typed admits plain.proper.named run
  exact ⟨⟨bits, named⟩, settled_convert plain.settled run,
    (hereditary_within w _).cast plain.typed admits plain.free run⟩

end Plain

/-- Whatever is assembled from constants and unknowns is canonical. -/
theorem Assembled.plain (assembled : Assembled iw e w) : Plain w e := by
  induction assembled with
  | const pos run => exact .const pos run
  | unknown named pos => exact .unknown named pos
  | sum some _ run ih => exact .sumWithin some ih run
  | product some _ run ih => exact .productWithin some ih run
  | negation _ run ih => exact ih.negation run
  | difference _ _ run lhs rhs => exact lhs.difference rhs run
  | maximum some _ run ih => exact .maximum some ih run
  | quotient _ _ run lhs rhs => exact lhs.quotient rhs run
  | cast _ admits run ih => exact ih.cast admits run

end ShapeRecovery.Expr
