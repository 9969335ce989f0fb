import ShapeRecovery.Proofs.Expr.Multiplied
import ShapeRecovery.Proofs.Expr.OperandOrder

namespace ShapeRecovery.Expr

variable {es fs gs hs : List Expr} {a b c e f r : Expr} {op : Nary} {signed : Bool} {u v w iw : Int}

section kept

theorem SameMaximum.refl (signed : Bool) (w : Int) (es : List Expr) : SameMaximum signed w es es :=
  ⟨fun _ _ => Iff.rfl, .of_mem_iff fun _ => Iff.rfl⟩

theorem SameMaximum.trans (first : SameMaximum signed w es fs) (second : SameMaximum signed w fs gs) :
    SameMaximum signed w es gs :=
  ⟨fun e other => (first.others e other).trans (second.others e other),
    fun n => (first.constants n).trans (second.constants n)⟩

theorem SameMaximum.append (first : SameMaximum signed w es fs) (second : SameMaximum signed w gs hs) :
    SameMaximum signed w (es ++ gs) (fs ++ hs) where
  others e other := by
    rw [List.mem_append, List.mem_append, first.others e other, second.others e other]
  constants := by
    simp only [constantsOf_append, List.map_append]
    exact first.constants.append second.constants

theorem SameMaximum.of_mem_iff (same : ∀ e, e ∈ es ↔ e ∈ fs) : SameMaximum signed w es fs := by
  refine ⟨fun e _ => same e, .of_mem_iff fun n => ?_⟩
  simp only [List.mem_map, mem_constantsOf, same]

theorem constantsOf_others (others : ∀ e ∈ es, e.isConst = false) : constantsOf es = [] := by
  induction es with
  | nil => rfl
  | cons e es ih =>
    obtain ⟨here, rest⟩ := List.forall_mem_cons.mp others
    cases e with
    | const v w => cases here
    | _ => exact ih rest

theorem isConst_of_distinctOthers (mem : e ∈ distinctOthers es []) : e.isConst = false := by
  simpa using (mem_distinctOthers.mp mem).imp_right And.right

/-- The constants that are kept are the one that stands for all. -/
private theorem constantsOf_keptOperands (signed : Bool) (w : Int) (es : List Expr) :
    constantsOf (keptOperands signed w es) = constantsOf (topConstant signed w es) := by
  rw [keptOperands, constantsOf_append, constantsOf_others fun _ => isConst_of_distinctOthers,
    List.nil_append]

/-- The constant that stands for all is as great as they are. -/
private theorem level_topConstant (signed : Bool) (w : Int) (es : List Expr) :
    Level ((constantsOf (topConstant signed w es)).map (readAs signed w))
      ((constantsOf es).map (readAs signed w)) := by
  unfold topConstant
  split
  · next none =>
    rw [none]
    exact .of_mem_iff fun _ => Iff.rfl
  · next v vs constants =>
    have among : greatestOf (v :: vs) ∈ (constantsOf es).map (readAs signed w) := by
      rw [constants]
      exact greatestOf_mem (List.cons_ne_nil v vs)
    obtain ⟨u, -, read⟩ := List.mem_map.mp among
    have top : readAs signed w ((greatest v vs).bmod (Word.modulus w)) = greatestOf (v :: vs) := by
      rw [readAs_bmod, show greatest v vs = greatestOf (v :: vs) from rfl, ← read, readAs_readAs]
    simp only [constantsOf, List.map_cons, List.map_nil, top, constants]
    exact Level.greatest (List.cons_ne_nil v vs)

/-- What is kept has the same maximum. -/
theorem sameMaximum_keptOperands (signed : Bool) (w : Int) (es : List Expr) :
    SameMaximum signed w (keptOperands signed w es) es where
  others e other := by
    have top : e ∉ topConstant signed w es := by
      rcases topConstant_cases signed w es with none | ⟨v, single⟩
      · simp [none]
      · rintro mem
        obtain rfl : e = _ := by simpa [single] using mem
        cases other
    simp [keptOperands, mem_distinctOthers, top, other]
  constants := by
    rw [constantsOf_keptOperands]
    exact level_topConstant signed w es

private theorem SameMaximum.ne_nil (same : SameMaximum signed w es fs) (some : fs ≠ []) : es ≠ [] := by
  rintro rfl
  obtain ⟨e, he⟩ := List.exists_mem_of_ne_nil fs some
  cases other : e.isConst with
  | false => simpa using (same.others e other).mpr he
  | true =>
    cases e with
    | const v b =>
      have among := List.mem_map_of_mem (f := readAs signed w) (mem_constantsOf.mpr ⟨b, he⟩)
      obtain ⟨u, hu, -⟩ := (same.constants _).mpr ⟨_, among, le_rfl⟩
      simp [constantsOf] at hu
    | _ => cases other

end kept

section fits

theorem occurs_iff : Occurs f e ↔ f = e ∨ ∃ g ∈ e.operands, Occurs f g := by
  constructor
  · rintro (_ | ⟨part, inside⟩)
    · exact .inl rfl
    · exact .inr ⟨_, part, inside⟩
  · rintro (rfl | ⟨g, part, inside⟩)
    · exact .here
    · exact .operand part inside

/-- The operands of a maximum: as in every canonical node, and each once. -/
structure MaximumFits (op : Nary) (ops : List Expr) : Prop extends OperandsFit op ops where
  distinct : ops.Nodup

/-- The maxima that occur in `e` have fitting operands. -/
def MaximaFit (e : Expr) : Prop :=
  ∀ (signed : Bool) (fs : List Expr), Occurs (nary (if signed then .signedMax else .unsignedMax) fs) e →
    MaximumFits (if signed then .signedMax else .unsignedMax) fs

theorem MaximaFit.operands (fit : MaximaFit e) : ∀ f ∈ e.operands, MaximaFit f :=
  fun _ part signed fs inside => fit signed fs (.operand part inside)

/-- Only at a maximum there is more to see than at the operands. -/
theorem maximaFit_node
    (other : ∀ (signed : Bool) fs, e ≠ nary (if signed then .signedMax else .unsignedMax) fs)
    (parts : ∀ f ∈ e.operands, MaximaFit f) : MaximaFit e := by
  intro signed fs inside
  rcases occurs_iff.mp inside with same | ⟨f, part, inside⟩
  · exact absurd same.symm (other signed fs)
  · exact parts f part signed fs inside

theorem maximaFit_const (v w : Int) : MaximaFit (const v w) :=
  maximaFit_node (fun _ _ => by simp) (by simp [operands])

theorem keptOperands_nodup (signed : Bool) (w : Int) (es : List Expr) : (keptOperands signed w es).Nodup := by
  refine (distinctOthers_nodup .nil).append ?_ fun e others top => ?_
  · rcases topConstant_cases signed w es with none | ⟨v, single⟩ <;> simp [*]
  · have other := isConst_of_distinctOthers others
    rcases topConstant_cases signed w es with none | ⟨v, single⟩
    · simp [none] at top
    · obtain rfl : e = _ := by simpa [single] using top
      cases other

private theorem keptOperands_single (signed : Bool) (w : Int) (es : List Expr) :
    ((keptOperands signed w es).filter fun e => e.isConst).length ≤ 1 := by
  have others : (distinctOthers es []).filter (fun e => e.isConst) = [] :=
    List.filter_eq_nil_iff.mpr fun e he => by simp [isConst_of_distinctOthers he]
  rw [keptOperands, List.filter_append, others, List.nil_append]
  refine (List.length_filter_le _ _).trans ?_
  rcases topConstant_cases signed w es with none | ⟨v, single⟩ <;> simp [*]

/-- The operands of maxima that fit are no such maxima. -/
theorem opened_of_maximaFit (signed : Bool) (fit : ∀ e ∈ es, MaximaFit e) :
    ∀ e ∈ flatten (if signed then .signedMax else .unsignedMax) es,
      e.naryOp? ≠ some (if signed then .signedMax else .unsignedMax) :=
  opened_flatten fun fs hfs => (fit _ hfs signed fs .here).opened

theorem maximaFit_maximum (some : es ≠ []) (typed : AllBits es w) (fit : ∀ e ∈ es, MaximaFit e)
    (run : maximum signed iw es = .ok r) : MaximaFit r := by
  have flat := flatten_of_below MaximaFit.operands (if signed then .signedMax else .unsignedMax) fit
  have opened := opened_of_maximaFit signed fit
  have filled : flatten (if signed then .signedMax else .unsignedMax) es ≠ [] := flatten_ne_nil typed some
  rw [maximum_eq iw rfl some typed] at run
  generalize flatten (if signed then .signedMax else .unsignedMax) es = es at *
  have kept := keptOperands_all signed w flat fun v => maximaFit_const _ w
  have closed := keptOperands_all signed w opened fun v => by simp [naryOp?]
  rcases ordered_cases ((sameMaximum_keptOperands signed w es).ne_nil filled) run with
    single | ⟨fs, hfs, several, rfl⟩
  · exact kept r (by simp [single])
  · have sorted := perm_of_sorted hfs
    intro signed' gs inside
    rcases occurs_iff.mp inside with same | ⟨f, part, inside⟩
    · have free (v : Int) : ¬ Trivial (if signed then .signedMax else .unsignedMax) v := by
        cases signed <;> exact not_false
      have noSum : (if signed then Nary.signedMax else .unsignedMax) ≠ .sum := by cases signed <;> decide
      injection same with sameOp sameOperands
      rw [sameOp, sameOperands]
      exact {
        toOperandsFit := operandsFit_of_sorted hfs several closed
          (keptOperands_single signed w es) (fun v _ _ => free v) (absurd · noSum)
        distinct := (sorted.nodup_iff).mpr (keptOperands_nodup signed w es) }
    · exact kept f (sorted.mem_iff.mp part) signed' gs inside

theorem inherited_maximaFit : Inherited MaximaFit where
  const := maximaFit_const
  uncomputable := maximaFit_node (fun _ _ => by simp) (by simp [operands])
  below := MaximaFit.operands
  recur l start step := recur_induction l
    (maximaFit_node (fun _ _ => by simp) (by simp [operands])) (fun _ => start) fun _ =>
      maximaFit_node (fun _ _ => by simp) (by simpa [operands] using ⟨start, step⟩)
  sum parts := maximaFit_node (fun signed _ => by cases signed <;> simp) parts
  maximum := maximaFit_maximum
  quotient first second := maximaFit_node (fun _ _ => by simp) (by simpa [operands] using ⟨first, second⟩)
  cast here := maximaFit_node (fun _ _ => by simp) (by simpa [operands] using here)
  otherFactors _ whole :=
    maximaFit_node (fun signed _ => by cases signed <;> simp) fun f hf =>
      whole.operands f (List.mem_cons_of_mem _ hf)
  product := by
    intro es head r _ plain leading _ _ _ run
    have all : ∀ e ∈ head ++ plainFactors es, MaximaFit e := by
      refine List.forall_mem_append.mpr ⟨?_, plain⟩
      rcases leading with rfl | ⟨v, w, -, -, rfl⟩
      · simp
      · simpa using maximaFit_const v w
    exact ordered_all (fun parts => maximaFit_node (fun signed _ => by cases signed <;> simp) parts) all run

theorem Built.maximaFit {addFits mulFits : Check} (built : Built iw addFits mulFits e w) : MaximaFit e :=
  inherited_maximaFit.built (fun _ _ => maximaFit_node (fun _ _ => by simp) (by simp [operands])) built

end fits

section laws

/-- A constant is what its reading stands for. -/
private theorem bmod_readAs (signed : Bool) (pos : 0 < w) (inRange : Word.InRange v w) :
    (readAs signed w v).bmod (Word.modulus w) = v := by
  cases signed <;> simp [readAs, readSigned, readUnsigned, Word.bmod_of_inRange pos inRange]

private theorem topConstant_of_single (signed : Bool) (typed : AllBits es w)
    (single : (constantsOf es).length ≤ 1) :
    topConstant signed w es = (constantsOf es).map fun v => const v w := by
  unfold topConstant
  rcases constants : constantsOf es with _ | ⟨v, _ | ⟨u, vs⟩⟩
  · rfl
  · obtain ⟨b, mem⟩ := mem_constantsOf.mp (constants ▸ List.mem_singleton_self v)
    have bits := typed _ mem
    simp [greatest, bmod_readAs signed bits.pos bits.const_inRange]
  · simp [constants] at single

private theorem filter_isConst (typed : AllBits es w) :
    es.filter (fun e => e.isConst) = (constantsOf es).map fun v => const v w := by
  induction es with
  | nil => rfl
  | cons e es ih =>
    obtain ⟨here, rest⟩ := AllBits.cons.mp typed
    cases e with
    | const v b =>
      obtain rfl := here.const_bits
      simpa [constantsOf, isConst] using ih rest
    | _ => simpa [constantsOf, isConst] using ih rest

/-- Different operands with one constant at most are all kept. -/
theorem keptOperands_perm (signed : Bool) (typed : AllBits es w) (distinct : es.Nodup)
    (single : (constantsOf es).length ≤ 1) : (keptOperands signed w es).Perm es := by
  rw [keptOperands, topConstant_of_single signed typed single, ← filter_isConst typed]
  have others : (distinctOthers es []).Perm (es.filter fun e => !e.isConst) := by
    refine (List.perm_ext_iff_of_nodup (distinctOthers_nodup .nil) (distinct.filter _)).mpr fun e => ?_
    simp [mem_distinctOthers]
  exact ((others.append_right _).trans List.perm_append_comm).trans (List.filter_append_perm _ es)

private theorem OperandsFit.constantsOf_le (fit : OperandsFit op es) : (constantsOf es).length ≤ 1 := by
  cases es with
  | nil => simp [constantsOf]
  | cons e es =>
    have rest : constantsOf es = [] := constantsOf_others fit.constantFirst
    cases e <;> simp [constantsOf, rest]

/-- An operator over operands in order is the node of these operands. -/
theorem OperandsFit.ordered (fit : OperandsFit op es) (typed : AllBits es w) :
    ordered op es = .ok (nary op es) := by
  obtain ⟨r, run, -⟩ := ordered_arranged op typed.texts
  rcases ordered_of_keysRise fit.rising run with single | ⟨-, rfl⟩
  · simpa [single] using fit.several
  · exact run

private theorem ordered_single (op : Nary) (typed : HasBits e w) : ordered op [e] = .ok e := by
  have texts : ∀ f ∈ [e], ∃ t, f.text = .ok t := by simpa using typed.text
  obtain ⟨r, run, -⟩ := ordered_arranged op texts
  have rise : KeysRise [e] := trivial
  rcases ordered_of_keysRise rise run with single | ⟨several, -⟩
  · rw [run, List.singleton_inj.mp single]
  · exact absurd rfl (several e)

/-- The maximum of the operands of a maximum is that maximum. -/
theorem maximum_of_fits (iw : Int) (kind : (if signed then Nary.signedMax else .unsignedMax) = op)
    (fit : MaximumFits op es) (proper : AllProper w es) : maximum signed iw es = .ok (nary op es) := by
  have some : es ≠ [] := List.ne_nil_of_length_pos (Nat.zero_lt_of_lt fit.several)
  have kept := keptOperands_perm signed proper.typed fit.distinct fit.constantsOf_le
  have sortable := proper_keptOperands signed (proper.typed.pos some) proper
  rw [maximum_eq iw kind some proper.typed, flatten_opened fit.opened, ordered_perm sortable kept]
  exact fit.ordered proper.typed

/-- What the constructors reached is the maximum of itself alone. -/
theorem maximum_alone (signed : Bool) (iw : Int) (fit : MaximaFit e) (proper : Proper w e) :
    maximum signed iw [e] = .ok e := by
  have alone : AllProper w [e] := by simpa using proper
  generalize kind : (if signed then Nary.signedMax else .unsignedMax) = op
  by_cases same : e.naryOp? = some op
  · obtain ⟨fs, rfl⟩ := naryOp_eq.mp same
    have fits : MaximumFits op fs := kind ▸ fit signed fs (kind ▸ .here)
    have parts : AllProper w fs := fun f hf =>
      ⟨(HasBits.nary_iff.mp proper.typed).2 f hf, named_nary.mp proper.named f hf⟩
    rw [← maximum_of_fits iw kind fits parts, maximum_eq iw kind (by simp) alone.typed,
      maximum_eq iw kind (List.ne_nil_of_length_pos (Nat.zero_lt_of_lt fits.several)) parts.typed]
    simp [flatten, flatten_opened fits.opened]
  · have kept : (keptOperands signed w [e]).Perm [e] := by
      refine keptOperands_perm signed alone.typed (List.nodup_singleton e) ?_
      cases e <;> simp [constantsOf]
    have sortable := proper_keptOperands signed proper.typed.pos alone
    rw [maximum_eq iw kind (by simp) alone.typed, flatten_other same, flatten, ordered_perm sortable kept]
    exact ordered_single op proper.typed

/-- A maximum in the place of its operands changes nothing about a maximum of its kind. -/
private theorem sameMaximum_of_maximum (kind : (if signed then Nary.signedMax else .unsignedMax) = op)
    (filled : es ≠ []) (typed : AllBits es w) (opened : ∀ e ∈ flatten op es, e.naryOp? ≠ some op)
    (run : maximum signed iw es = .ok r) : SameMaximum signed w (flatten op [r]) (flatten op es) := by
  rw [maximum_eq iw kind filled typed] at run
  refine .trans (.of_mem_iff fun e => ?_) (sameMaximum_keptOperands signed w (flatten op es))
  rcases arranged_of_ordered run with single | ⟨-, fs, perm, rfl⟩
  · have other := keptOperands_all signed w opened (fun v => by simp [naryOp?]) r (by simp [single])
    rw [flatten_other other, flatten, single]
  · simp [flatten, perm.mem_iff]

/-- A proper value whose maxima are as the constructors leave them. -/
structure Reached (w : Int) (e : Expr) : Prop extends Proper w e where
  fit : MaximaFit e

theorem Built.reached {addFits mulFits : Check} (built : Built iw addFits mulFits e w) (named : e.Named) :
    Reached w e :=
  ⟨⟨built.hasBits, named⟩, built.maximaFit⟩

theorem maximum_reached (signed : Bool) (iw : Int) (some : es ≠ []) (parts : ∀ e ∈ es, Reached w e) :
    ∃ r, maximum signed iw es = .ok r ∧ Reached w r := by
  have typed : AllBits es w := fun e he => (parts e he).typed
  obtain ⟨r, run, bits⟩ := (maximum_yields signed default iw typed.operands some).typed
  refine ⟨r, run, ⟨⟨bits, ?_⟩, ?_⟩⟩
  · exact named_maximum (fun e he => (parts e he).named) run
  · exact maximaFit_maximum some typed (fun e he => (parts e he).fit) run

/-- The maximum of a maximum of `es` and of other operands is that of all of them. -/
theorem maximum_grouped (signed : Bool) (iw : Int) (some : es ≠ []) (parts : ∀ e ∈ es, Reached w e)
    (others : ∀ e ∈ fs, Reached w e) (run : maximum signed iw es = .ok r) :
    maximum signed iw (r :: fs) = maximum signed iw (es ++ fs) := by
  obtain ⟨r, run', reached⟩ := maximum_reached signed iw some parts
  cases run.symm.trans run'
  have apart : AllProper w (r :: fs) :=
    AllProper.cons.mpr ⟨reached.toProper, fun e he => (others e he).toProper⟩
  have together : AllProper w (es ++ fs) :=
    AllProper.append.mpr ⟨fun e he => (parts e he).toProper, fun e he => (others e he).toProper⟩
  have opened := opened_of_maximaFit signed fun e he => (parts e he).fit
  have typed : AllBits es w := fun e he => (parts e he).typed
  generalize kind : (if signed then Nary.signedMax else .unsignedMax) = op at opened
  have same := (sameMaximum_of_maximum kind some typed opened run).append (.refl signed w (flatten op fs))
  rw [← flatten_append, ← flatten_append] at same
  exact maximum_congr iw kind (by simp) (by simp [some]) apart together same

/-- The greater of two constants of `w` bits, read with or without a sign. -/
def greaterConstant (signed : Bool) (w u v : Int) : Int :=
  if readAs signed w u < readAs signed w v then v else u

/-- The greater of two constants stands for both. -/
private theorem sameMaximum_constants (signed : Bool) (w u v : Int) :
    SameMaximum signed w [const u w, const v w] [const (greaterConstant signed w u v) w] where
  others e other := by
    have noConst (n : Int) : e ≠ const n w := by
      rintro rfl
      cases other
    simp [noConst]
  constants n := by
    simp only [constantsOf, List.map_cons, List.map_nil, List.mem_cons, List.not_mem_nil, or_false,
      exists_eq_or_imp, exists_eq_left, greaterConstant]
    split <;> omega

theorem inRange_greaterConstant (signed : Bool) (hu : Word.InRange u w) (hv : Word.InRange v w) :
    Word.InRange (greaterConstant signed w u v) w := by
  unfold greaterConstant
  split <;> assumption

/-- What stands twice counts once. -/
theorem maximum_twice (signed : Bool) (iw : Int) (ha : Reached w a) : maximum signed iw [a, a] = .ok a := by
  have single : AllProper w [a] := by simpa using ha.toProper
  have double : AllProper w [a, a] := by simpa using ha.toProper
  rw [← maximum_alone signed iw ha.fit ha.toProper]
  refine maximum_congr iw rfl (by simp) (by simp) double single (.of_mem_iff fun e => ?_)
  rw [show [a, a] = [a] ++ [a] from rfl, flatten_append, List.mem_append, or_self]

/-- It does not matter which two of three operands come first. -/
theorem maximum_assoc (signed : Bool) (iw : Int) (ha : Reached w a) (hb : Reached w b) (hc : Reached w c) :
    ∃ ab bc r, maximum signed iw [a, b] = .ok ab ∧ maximum signed iw [b, c] = .ok bc ∧
      maximum signed iw [ab, c] = .ok r ∧ maximum signed iw [a, bc] = .ok r ∧
        maximum signed iw [a, b, c] = .ok r := by
  have first : ∀ e ∈ [a, b], Reached w e := by simpa using ⟨ha, hb⟩
  have second : ∀ e ∈ [b, c], Reached w e := by simpa using ⟨hb, hc⟩
  have all : ∀ e ∈ [a, b, c], Reached w e := by simpa using ⟨ha, hb, hc⟩
  obtain ⟨ab, hab, -⟩ := maximum_reached signed iw (by simp) first
  obtain ⟨bc, hbc, right⟩ := maximum_reached signed iw (by simp) second
  obtain ⟨r, run, -⟩ := maximum_reached signed iw (by simp) all
  refine ⟨ab, bc, r, hab, hbc, ?_, ?_, run⟩
  · rw [← run]
    exact maximum_grouped signed iw (by simp) first (by simpa using hc) hab
  · have turned : AllProper w [a, bc] := by simpa using ⟨ha.toProper, right.toProper⟩
    have rotated : AllProper w [b, c, a] := by simpa using ⟨hb.toProper, hc.toProper, ha.toProper⟩
    calc maximum signed iw [a, bc]
      _ = maximum signed iw [bc, a] := maximum_perm signed iw (by simp) turned (.swap bc a [])
      _ = maximum signed iw [b, c, a] := maximum_grouped signed iw (by simp) second (by simpa using ha) hbc
      _ = maximum signed iw [a, b, c] := maximum_perm signed iw (by simp) rotated
        (show ([b, c] ++ [a]).Perm ([a] ++ [b, c]) from List.perm_append_comm)
      _ = .ok r := run

theorem reached_const (pos : 0 < w) (inRange : Word.InRange v w) : Reached w (const v w) :=
  ⟨⟨.const pos inRange, named_const⟩, maximaFit_const v w⟩

/-- Beside other operands two constants are as good as the greater one. -/
theorem maximum_constants (signed : Bool) (iw : Int) (pos : 0 < w) (others : ∀ e ∈ es, Reached w e)
    (hu : Word.InRange u w) (hv : Word.InRange v w) :
    maximum signed iw (es ++ [const u w, const v w]) =
      maximum signed iw (es ++ [const (greaterConstant signed w u v) w]) := by
  have proper : AllProper w es := fun e he => (others e he).toProper
  have two : AllProper w [const u w, const v w] := by
    simpa using ⟨(reached_const pos hu).toProper, (reached_const pos hv).toProper⟩
  have one : AllProper w [const (greaterConstant signed w u v) w] := by
    simpa using (reached_const pos (inRange_greaterConstant signed hu hv)).toProper
  generalize kind : (if signed then Nary.signedMax else .unsignedMax) = op
  refine maximum_congr iw kind (by simp) (by simp) (AllProper.append.mpr ⟨proper, two⟩)
    (AllProper.append.mpr ⟨proper, one⟩) ?_
  rw [flatten_append, flatten_append]
  exact (SameMaximum.refl signed w _).append (sameMaximum_constants signed w u v)

/-- The laws of maxima of one kind: as a join they are idempotent, commutative and associative, and of
constants they keep the greater one, as this kind reads them. -/
structure Semilattice (signed : Bool) (iw w : Int) (a b c : Expr) : Prop where
  alone : maximum signed iw [a] = .ok a
  twice : maximum signed iw [a, a] = .ok a
  swapped : maximum signed iw [a, b] = maximum signed iw [b, a]
  grouped : ∃ ab bc r, maximum signed iw [a, b] = .ok ab ∧ maximum signed iw [b, c] = .ok bc ∧
    maximum signed iw [ab, c] = .ok r ∧ maximum signed iw [a, bc] = .ok r ∧
      maximum signed iw [a, b, c] = .ok r
  constants : ∀ u v, Word.InRange u w → Word.InRange v w →
    maximum signed iw [const u w, const v w] = .ok (const (greaterConstant signed w u v) w) ∧
      maximum signed iw [a, const u w, const v w] =
        maximum signed iw [a, const (greaterConstant signed w u v) w]

theorem Reached.semilattice (signed : Bool) (iw : Int) (ha : Reached w a) (hb : Reached w b)
    (hc : Reached w c) : Semilattice signed iw w a b c where
  alone := maximum_alone signed iw ha.fit ha.toProper
  twice := maximum_twice signed iw ha
  swapped := by
    have both : AllProper w [a, b] := by simpa using ⟨ha.toProper, hb.toProper⟩
    exact maximum_perm signed iw (by simp) both (.swap b a [])
  grouped := maximum_assoc signed iw ha hb hc
  constants u v hu hv := by
    have pos := ha.typed.pos
    have top := reached_const pos (inRange_greaterConstant signed hu hv)
    have none : ∀ e ∈ [], Reached w e := by simp
    have single : ∀ e ∈ [a], Reached w e := by simpa using ha
    refine ⟨?_, maximum_constants signed iw pos single hu hv⟩
    rw [← maximum_alone signed iw top.fit top.toProper]
    exact maximum_constants signed iw pos none hu hv

/-- Maxima of what the constructors reach form a semilattice. -/
theorem semilattice_of_built (signed : Bool) (ha : Built iw (fun _ => true) (fun _ => true) a w)
    (hb : Built iw (fun _ => true) (fun _ => true) b w) (hc : Built iw (fun _ => true) (fun _ => true) c w)
    (na : a.Named) (nb : b.Named) (nc : c.Named) : Semilattice signed iw w a b c :=
  (ha.reached na).semilattice signed iw (hb.reached nb) (hc.reached nc)

/-- The iterations of a loop, counted in words of eight bits. -/
def byteCounter : Expr := recurrence (const 0 8) (const 1 8) innerLoop

/-- An unsigned maximum with a signed one for an operand. -/
def mixedMaximum : Expr :=
  nary .unsignedMax [unknown ⟨"x", 1⟩ 8, nary .signedMax [const 3 8, unknown ⟨"y", 2⟩ 8]]

theorem semilattice_of_built_mixed :
    Built 64 (fun _ => true) (fun _ => true) byteCounter 8 ∧
    Built 64 (fun _ => true) (fun _ => true) mixedMaximum 8 ∧
    Built 64 (fun _ => true) (fun _ => true) (const (-1) 8) 8 ∧
    byteCounter.Named ∧ mixedMaximum.Named ∧ (const (-1) 8).Named ∧
    Semilattice true 64 8 byteCounter mixedMaximum (const (-1) 8) ∧
    Semilattice false 64 8 byteCounter mixedMaximum (const (-1) 8) := by
  have index : Built 64 (fun _ => true) (fun _ => true) byteCounter 8 :=
    .inductionVariable (l := innerLoop) (by decide) rfl
  have three : Built 64 (fun _ => true) (fun _ => true) (const 3 8) 8 := .const (v := 3) (by decide) rfl
  have minus : Built 64 (fun _ => true) (fun _ => true) (const (-1) 8) 8 := .const (v := -1) (by decide) rfl
  have mixed : Built 64 (fun _ => true) (fun _ => true) mixedMaximum 8 := by
    have inner : maximum true 64 [unknown ⟨"y", 2⟩ 8, const 3 8] =
        .ok (nary .signedMax [const 3 8, unknown ⟨"y", 2⟩ 8]) := by decide +kernel
    have outer : maximum false 64 mixedMaximum.operands = .ok mixedMaximum := by decide +kernel
    have known (s : Symbol) : Built 64 (fun _ => true) (fun _ => true) (unknown s 8) 8 :=
      .unknown s (by decide)
    have below := Built.maximum (by simp) (by simpa using ⟨known _, three⟩) inner
    exact .maximum (by simp [mixedMaximum, operands])
      (by simpa [mixedMaximum, operands] using ⟨known _, below⟩) outer
  have nameIndex : byteCounter.Named := by decide +kernel
  have nameMixed : mixedMaximum.Named := by decide +kernel
  have laws (signed : Bool) : Semilattice signed 64 8 byteCounter mixedMaximum (const (-1) 8) :=
    semilattice_of_built signed index mixed minus nameIndex nameMixed named_const
  exact ⟨index, mixed, minus, nameIndex, nameMixed, named_const, laws true, laws false⟩

/-- The word of all ones is below one if words have a sign, and above it if they have none. -/
example : greaterConstant true 8 (-1) 1 = 1 ∧ greaterConstant false 8 (-1) 1 = -1 := by decide

end laws

end ShapeRecovery.Expr
