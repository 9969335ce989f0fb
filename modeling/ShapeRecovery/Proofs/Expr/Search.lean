import ShapeRecovery.Proofs.Ending
import ShapeRecovery.Proofs.Expr.Divided
import ShapeRecovery.Proofs.Expr.Matching
import ShapeRecovery.Proofs.Expr.ProductParts
import ShapeRecovery.Proofs.Expr.ZeroFactor
import ShapeRecovery.Proofs.Memory.Pointer

namespace ShapeRecovery.Expr

/-- What the search takes whole of an expression. Of the products in a recurrence (`inner`) some
factors are left out. -/
def pieces (inner : Bool) : Expr → List Expr
  | nary .product factors => (factors.filter fun f => !inner || isSearchedFactor f).flatMap factorPieces
  | recurrence start step _ => pieces true start ++ pieces true step
  | e => factorPieces e

/-- `P` holds of all that the search takes whole. -/
def Sought (P : Expr → Prop) (inner : Bool) (e : Expr) : Prop := ∀ p ∈ pieces inner e, P p

variable {P : Expr → Prop} {w v : Int} {n : Nat} {allowed : Fault → Prop} {settings : Settings}

/-- What the search among expressions with a width needs of the property `P`: it is handed down and up;
and where the factor zero is no allowed cause of a refusal, products that it holds of have none. -/
structure Seeks (allowed : Fault → Prop) (settings : Settings) (P : Expr → Prop) : Prop where
  closed : Hereditary settings.indexWidth P
  nonzero : allowed .notNonzeroConstant ∨ ∀ es, P (.nary .product es) → ∀ e ∈ es, e.isZero = false

/-- What the search among all expressions needs besides: there is a default width. -/
structure Searches (allowed : Fault → Prop) (settings : Settings) (P : Expr → Prop) : Prop
    extends Seeks allowed settings P where
  width : allowed .negativeWidth ∨ 0 < settings.indexWidth

/-- Among products without a factor zero the search is not refused for one. -/
theorem seeks_zeroFree (settings : Settings) :
    Seeks (fun _ => False) settings fun e => e.zeroFree = true where
  closed := hereditary_zeroFree _
  nonzero := .inr fun _ free => (zeroFree_product.mp free).1

section pieces

variable {iw : Int} (closed : Hereditary iw P)
include closed

theorem Hereditary.factorPieces {e : Expr} (h : P e) : ∀ p ∈ factorPieces e, P p := by
  intro p hp
  unfold Expr.factorPieces at hp
  split at hp
  · next kind start step l bits =>
    have moving : P (.recurrence start step l) := closed.below h _ (by simp [operands])
    exact closed.below moving p (by simpa [operands] using hp)
  · exact closed.below h p (by simpa [operands] using hp)
  all_goals
    first
    | exact List.mem_singleton.mp hp ▸ h
    | cases hp

/-- What holds of an expression holds of what is taken of it. -/
theorem Hereditary.sought : ∀ {e : Expr} (inner : Bool), P e → Sought P inner e
  | .nary .product es, inner, h => by
    intro p hp
    obtain ⟨f, hf, hp⟩ := List.mem_flatMap.mp hp
    have factor : P f := closed.below h f (List.mem_of_mem_filter hf)
    exact closed.factorPieces factor p hp
  | .recurrence a b l, inner, h => by
    have start := Hereditary.sought (e := a) true (closed.below h a (by simp [operands]))
    have step := Hereditary.sought (e := b) true (closed.below h b (by simp [operands]))
    intro p hp
    exact (List.mem_append.mp hp).elim (start p) (step p)
  | .const .., _, h | .unknown .., _, h | .nary .sum _, _, h | .nary .signedMax _, _, h
  | .nary .unsignedMax _, _, h | .quotient .., _, h | .cast .., _, h | .uncomputable, _, h =>
    closed.factorPieces h

theorem sought_const (v b : Int) (inner : Bool) : Sought P inner (.const v b) :=
  closed.sought inner (closed.const v b)

omit closed in
private theorem sought_of_searched {e : Expr} (searched : isSearchedFactor e = true)
    (taken : ∀ p ∈ factorPieces e, P p) : Sought P false e := by
  cases e with
  | nary op es =>
    cases op with
    | sum => exact taken
    | _ => simp [isSearchedFactor] at searched
  | const | unknown | cast => exact taken
  | _ => simp [isSearchedFactor] at searched

omit closed in
private theorem flatten_searched {kept : List Expr} (searched : ∀ k ∈ kept, isSearchedFactor k = true) :
    flatten .product kept = kept := by
  refine flatten_opened fun e he same => ?_
  obtain ⟨fs, rfl⟩ := naryOp_eq.mp same
  simpa [isSearchedFactor] using searched _ he

omit closed in
/-- A product of searched factors, one of them no constant and no sum, is only sorted. -/
theorem productOf_searched {kept : List Expr} {k r : Expr} (typed : AllBits kept w)
    (searched : ∀ k ∈ kept, isSearchedFactor k = true) (hk : k ∈ kept) (other : k.isConst = false)
    (single : ∀ es, k ≠ .nary .sum es) (run : productOf iw kept = .ok r) :
    (∃ v, r = .const v w) ∨ r ∈ kept ∨
      ∃ fs, r = .nary .product fs ∧ ∀ f ∈ fs, (∃ v, f = .const v w) ∨ f ∈ kept := by
  have some := List.ne_nil_of_mem hk
  have width := commonWidth_eq iw typed some
  have remains : k ∈ kept.filter fun o => !o.isConst := List.mem_filter.mpr ⟨hk, by simp [other]⟩
  obtain ⟨m, fuel⟩ : ∃ m, fuelFor .product kept = m + 1 := ⟨4 * weight (.nary .product kept) + 3, rfl⟩
  rw [productOf, fuel] at run
  have ways := productStep_cases run
  rw [flatten_searched searched, width] at ways
  rcases ways with ⟨mem, -⟩ | ⟨v, b, bits, made⟩ | ⟨b, c, head, hb, -, -, hhead, -, run⟩
  · exact absurd rfl (typed _ mem).ne_uncomputable
  · obtain ⟨u, -, rfl⟩ := ofInt_cases made
    cases bits.resolve_left fun none => some none.1
    exact .inl ⟨u, rfl⟩
  cases hb
  have factor : ∀ f ∈ head ++ kept.filter fun o => !o.isConst, (∃ v, f = .const v w) ∨ f ∈ kept :=
    fun f hf => (List.mem_append.mp hf).imp (const_of_constantHead hhead f) List.mem_of_mem_filter
  have still : scalable? (head ++ kept.filter fun o => !o.isConst) = none := by
    refine scalable_none fun f hf => ?_
    rcases factor f hf with ⟨v, rfl⟩ | hf
    · rfl
    · have := searched f hf
      cases f <;> simp_all [isSearchedFactor, isRecurrence]
  have alone : ∀ c es, head = [c] → (kept.filter fun o => !o.isConst) = [.nary .sum es] → False := by
    intro c es _ sum
    exact single es (by simpa [sum] using remains)
  rw [joinFactors_ordered still alone] at run
  rcases arranged_of_ordered run with one | ⟨-, fs, perm, rfl⟩
  · rcases factor r (by simp [one]) with const | kept
    · exact .inl const
    · exact .inr (.inl kept)
  · exact .inr (.inr ⟨fs, rfl, fun f hf => factor f (perm.mem_iff.mp hf)⟩)

/-- A product of searched factors takes no more than they do. -/
private theorem sought_productOf {kept : List Expr} {r : Expr} (some : kept ≠ []) (typed : AllBits kept w)
    (searched : ∀ k ∈ kept, isSearchedFactor k = true)
    (taken : ∀ k ∈ kept, ∀ p ∈ factorPieces k, P p) (run : productOf iw kept = .ok r) :
    Sought P false r := by
  by_cases whole : ∀ k ∈ kept, P k
  · exact closed.sought false (closed.product some typed whole run)
  -- Otherwise there is a cast that is opened later, so that the factors are only sorted.
  obtain ⟨k, hk, opened⟩ : ∃ k ∈ kept, ¬ P k := by simpa using whole
  have other : k.isConst = false := by
    cases k with
    | const v b => exact absurd (closed.const v b) opened
    | _ => rfl
  have single : ∀ es, k ≠ .nary .sum es := by
    rintro es rfl
    exact opened (taken _ hk _ (by simp [Expr.factorPieces]))
  rcases productOf_searched typed searched hk other single run with ⟨v, rfl⟩ | hr | ⟨fs, rfl, factor⟩
  · exact sought_const closed v w false
  · exact sought_of_searched (searched r hr) (taken r hr)
  · intro p hp
    obtain ⟨f, hf, hp⟩ := List.mem_flatMap.mp hp
    rcases factor f (List.mem_of_mem_filter hf) with ⟨v, rfl⟩ | hf
    · exact sought_const closed v w false p hp
    · exact taken f hf p hp

/-- What is searched of a part of a recurrence. -/
theorem searchableProduct_sought {e : Expr} (typed : HasBits e w) (sought : Sought P true e) :
    ∃ a, searchableProduct iw e = .ok a ∧ HasBits a w ∧ weight a ≤ weight e ∧ Sought P false a := by
  have whole (same : searchableProduct iw e = .ok e) (alike : pieces false e = pieces true e) :
      ∃ a, searchableProduct iw e = .ok a ∧ HasBits a w ∧ weight a ≤ weight e ∧ Sought P false a :=
    ⟨e, same, typed, le_rfl, by rwa [Sought, alike]⟩
  cases e with
  | nary op factors =>
    cases op with
    | product =>
      obtain ⟨several, parts⟩ := HasBits.nary_iff.mp typed
      have sub : (factors.filter isSearchedFactor).Sublist factors := List.filter_sublist
      have searched : ∀ k ∈ factors.filter isSearchedFactor, isSearchedFactor k = true :=
        fun k hk => (List.mem_filter.mp hk).2
      have taken : ∀ k ∈ factors.filter isSearchedFactor, ∀ p ∈ factorPieces k, P p :=
        fun k hk p hp => sought p (List.mem_flatMap.mpr ⟨k, by simpa using hk, hp⟩)
      simp only [searchableProduct]
      generalize factors.filter isSearchedFactor = kept at sub searched taken
      cases kept with
      | nil =>
        have pos := typed.pos
        refine ⟨_, ?_, hasBits_const_bmod pos 1, weight_pos _, sought_const closed _ _ _⟩
        simp only [typed.width, ok_bind]
        exact one_eq pos
      | cons k kept =>
        have ktyped : AllBits (k :: kept) w := fun e he => parts e (sub.subset he)
        obtain ⟨a, ha, same⟩ := productOf_spec iw (by simp) ktyped
        refine ⟨a, ha, same.hasBits, ?_, sought_productOf closed (by simp) ktyped searched taken ha⟩
        rw [weight_product several]
        exact same.weight_single_product.trans (weightProduct_sublist sub)
    | _ => exact whole rfl rfl
  | _ => exact whole rfl rfl

end pieces

section terms

variable {iw : Int}

/-- `P` holds of `e`, which has a width. -/
def Bears (P : Expr → Prop) (e : Expr) : Prop := P e ∧ ∃ w, HasBits e w

/-- `P` holds of all of `ts`, which have `w` bits. -/
def AllBear (P : Expr → Prop) (w : Int) (ts : List Expr) : Prop := ∀ t ∈ ts, P t ∧ HasBits t w

/-- `P` holds of the divisor `d` of `es`, which has a width: that of `es`, if these have one. -/
structure Suits (P : Expr → Prop) (es : List Expr) (d : Expr) : Prop where
  bears : Bears P d
  typed : ∀ w, AllBits es w → HasBits d w

/-- `divisor` finds divisors of two expressions that weigh less than `n` together. -/
def FindsBelow (allowed : Fault → Prop) (P : Expr → Prop) (divisor : List Expr → Traced Expr) (n : Nat) :
    Prop :=
  ∀ a b w, HasBits a w → HasBits b w → Sought P false a → Sought P false b →
    weight a + weight b < n → Ends allowed (divisor [a, b]).outcome fun d => P d ∧ HasBits d w

/-- A divisor of two parts stands for the expression that they are parts of. -/
theorem FindsBelow.divided {divisor : List Expr → Traced Expr} (finds : FindsBelow allowed P divisor n)
    {a b : Expr} (ha : HasBits a w) (hb : HasBits b w) (first : Sought P false a)
    (second : Sought P false b) (lighter : weight a + weight b < n) :
    Ends allowed ((divisor [a, b]).outcome >>= fun d => pure [d]) (AllBear P w) := by
  apply (finds a b w ha hb first second lighter).bind
  intro d found
  exact .ok (by simpa [AllBear] using found)

/-- A product is searched as its recurrences start and as they step, or whole. -/
private theorem searchTerms_product {divisor : List Expr → Traced Expr} (closed : Hereditary iw P)
    (finds : FindsBelow allowed P divisor n) {factors : List Expr}
    (typed : HasBits (.nary .product factors) w) (sought : Sought P false (.nary .product factors))
    (light : weight (.nary .product factors) ≤ n) :
    Ends allowed (searchTerms divisor iw (.nary .product factors)).outcome (AllBear P w) := by
  obtain ⟨several, parts⟩ := HasBits.nary_iff.mp typed
  have taken : ∀ f ∈ factors, ∀ p ∈ factorPieces f, P p := fun f hf p hp =>
    sought p (List.mem_flatMap.mpr ⟨f, by simpa using hf, hp⟩)
  obtain ⟨p, hp, parted⟩ := ofFactors_parted closed parts taken
  rw [weight_product several] at light
  simp only [searchTerms, Traced.outcome_bind, Traced.outcome_lift, hp, ok_bind]
  split
  · next moves =>
    simp only [Bool.and_eq_true, Bool.not_eq_true', List.isEmpty_eq_false_iff] at moves
    obtain ⟨a, ha, first⟩ := productOf_spec iw moves.2 parted.starts
    obtain ⟨b, hb, second⟩ := productOf_spec iw (parted.steps_ne_nil moves.1) parted.steps
    have lighter := parted.lighter moves.1
    have low := first.weight_single_product
    have low' := second.weight_single_product
    have start := closed.product moves.2 parted.starts parted.startsKept ha
    have step := closed.product (parted.steps_ne_nil moves.1) parted.steps parted.stepsKept hb
    simp only [Traced.outcome_bind, Traced.outcome_lift, Traced.outcome_pure, ha, hb, ok_bind]
    exact finds.divided first.hasBits second.hasBits (closed.sought false start)
      (closed.sought false step) (by omega)
  · split
    · exact .ok (by simp [AllBear])
    · next some =>
      have some' : p.steps ≠ [] := by simpa using some
      obtain ⟨t, ht, same⟩ := productOf_spec iw some' parted.steps
      have kept := closed.product some' parted.steps parted.stepsKept ht
      simp only [Traced.outcome_bind, Traced.outcome_lift, Traced.outcome_pure, ht, ok_bind]
      exact .ok (by simpa [AllBear] using ⟨kept, same.hasBits⟩)

private theorem searchTerms_ends {divisor : List Expr → Traced Expr} (closed : Hereditary iw P)
    (finds : FindsBelow allowed P divisor n) {e : Expr} (typed : HasBits e w) (sought : Sought P false e)
    (light : weight e ≤ n) :
    Ends allowed (searchTerms divisor iw e).outcome (AllBear P w) := by
  have itself (whole : (searchTerms divisor iw e).outcome = .ok [e]) (piece : e ∈ pieces false e) :
      Ends allowed (searchTerms divisor iw e).outcome (AllBear P w) := by
    rw [whole]
    exact .ok (by simpa [AllBear] using ⟨sought e piece, typed⟩)
  have passed (none : (searchTerms divisor iw e).outcome = .ok []) :
      Ends allowed (searchTerms divisor iw e).outcome (AllBear P w) := by
    rw [none]
    exact .ok (by simp [AllBear])
  cases e with
  | const => exact itself rfl (by simp [pieces, factorPieces])
  | unknown => exact itself rfl (by simp [pieces, factorPieces])
  | quotient => exact passed rfl
  | uncomputable => exact passed rfl
  | nary op factors =>
    cases op with
    | sum => exact itself rfl (by simp [pieces, factorPieces])
    | signedMax => exact passed rfl
    | unsignedMax => exact passed rfl
    | product => exact searchTerms_product closed finds typed sought light
  | recurrence a b l =>
    obtain ⟨ha, hb⟩ := HasBits.recurrence_iff.mp typed
    have start : Sought P true a := fun p hp => sought p (List.mem_append_left _ hp)
    have step : Sought P true b := fun p hp => sought p (List.mem_append_right _ hp)
    obtain ⟨a', ha', atyped, alight, first⟩ := searchableProduct_sought closed ha start
    obtain ⟨b', hb', btyped, blight, second⟩ := searchableProduct_sought closed hb step
    simp only [searchTerms, Traced.outcome_bind, Traced.outcome_lift, Traced.outcome_pure, ha', hb',
      ok_bind]
    simp only [weight] at light
    exact finds.divided atyped btyped first second (by omega)
  | cast kind arg bits =>
    cases arg with
    | recurrence a b l =>
      have start : P a := sought a (by simp [pieces, factorPieces])
      have step : P b := sought b (by simp [pieces, factorPieces])
      obtain ⟨a', b', ha', hb', ⟨atyped, first⟩, ⟨btyped, second⟩, -⟩ :=
        castParts_spec closed typed start step
      simp only [searchTerms, withOperands_cast, Traced.outcome_bind,
        Traced.outcome_lift, Traced.outcome_pure, ha', hb', ok_bind]
      exact .ok (by simpa [AllBear] using ⟨⟨second, btyped⟩, first, atyped⟩)
    | unknown => exact itself rfl (by simp [pieces, factorPieces])
    | nary op es =>
      cases op with
      | sum | product => exact itself rfl (by simp [pieces, factorPieces])
      | _ => exact passed rfl
    | _ => exact passed rfl

private theorem searchTermsOfList_ends {divisor : List Expr → Traced Expr} (closed : Hereditary iw P)
    (finds : FindsBelow allowed P divisor n) {es : List Expr} (fit : ∀ e ∈ es, e.WellFormed)
    (sought : ∀ e ∈ es, Sought P false e) (light : ∀ e ∈ es, weight e ≤ n) :
    Ends allowed (searchTermsOfList divisor iw es).outcome fun ts =>
      (∀ t ∈ ts, Bears P t) ∧ ∀ w, AllBits es w → AllBits ts w := by
  induction es with
  | nil => exact .ok ⟨by simp, fun _ _ => AllBits.nil⟩
  | cons e es ih =>
    obtain ⟨first, others⟩ := List.forall_mem_cons.mp fit
    simp only [searchTermsOfList, Traced.outcome_bind, Traced.outcome_pure]
    have here : Ends allowed (searchTerms divisor iw e).outcome fun ts =>
        (∀ t ∈ ts, Bears P t) ∧ ∀ w, HasBits e w → AllBits ts w := by
      rcases first with rfl | ⟨w, typed⟩
      · exact .ok ⟨by simp, fun _ _ => AllBits.nil⟩
      · refine (searchTerms_ends closed finds typed (sought e (by simp)) (light e (by simp))).mono ?_
        intro ts found
        refine ⟨fun t ht => ⟨(found t ht).1, w, (found t ht).2⟩, fun v same t ht => ?_⟩
        exact typed.bits_unique same ▸ (found t ht).2
    apply here.bind
    rintro ts ⟨found, bits⟩
    refine (ih others (fun f hf => sought f (by simp [hf])) fun f hf => light f (by simp [hf])).bind ?_
    rintro rest ⟨found', bits'⟩
    refine .ok ⟨List.forall_mem_append.mpr ⟨found, found'⟩, fun w typed => ?_⟩
    obtain ⟨he, hes⟩ := AllBits.cons.mp typed
    exact AllBits.append.mpr ⟨bits w he, bits' w hes⟩

end terms

section candidates

variable {es ds terms : List Expr} {e : Expr}

private theorem factorCandidates_ends (closed : Hereditary settings.indexWidth P) (typed : HasBits e w)
    (kept : P e) (nonzero : allowed .notNonzeroConstant ∨ e.isZero = false) :
    Ends allowed (factorCandidates settings e).outcome fun ds => AllBits ds w ∧ ∀ d ∈ ds, P d := by
  cases e with
  | const v b =>
    obtain rfl := typed.const_bits
    simp only [factorCandidates, isConst, if_true]
    by_cases nought : v = 0
    · have cause : allowed .notNonzeroConstant := nonzero.resolve_right (by simp [isZero, nought])
      simp only [constantDivisors, nought, if_true, Traced.outcome_bind, Traced.outcome_throw]
      exact .error cause
    · obtain ⟨ds, hds, dtyped, constants, -⟩ := constantDivisors_spec settings typed.pos nought
      rw [hds]
      refine .ok ⟨dtyped, fun d hd => ?_⟩
      have constant := constants d hd
      cases d with
      | const u b => exact closed.const u b
      | _ => simp [isConst] at constant
  | _ => exact .ok ⟨by simpa using typed, by simpa using kept⟩

private theorem candidates_ends (closed : Hereditary settings.indexWidth P) (typed : AllBits es w)
    (kept : ∀ e ∈ es, P e) (nonzero : allowed .notNonzeroConstant ∨ ∀ e ∈ es, e.isZero = false) :
    Ends allowed (candidates settings es).outcome fun ds => AllBits ds w ∧ ∀ d ∈ ds, P d := by
  induction es with
  | nil => exact .ok ⟨AllBits.nil, by simp⟩
  | cons e es ih =>
    obtain ⟨he, hes⟩ := AllBits.cons.mp typed
    obtain ⟨first, others⟩ := List.forall_mem_cons.mp kept
    simp only [candidates, Traced.outcome_bind, Traced.outcome_pure]
    have here := factorCandidates_ends closed he first (nonzero.imp_right fun h => h e (by simp))
    have rest := ih hes others (nonzero.imp_right fun h f hf => h f (by simp [hf]))
    apply here.bind
    rintro ds ⟨dtyped, dkept⟩
    apply rest.bind
    rintro ds' ⟨dtyped', dkept'⟩
    exact .ok ⟨AllBits.append.mpr ⟨dtyped, dtyped'⟩, List.forall_mem_append.mpr ⟨dkept, dkept'⟩⟩

/-- A constant of the default width, or of any other positive one. -/
theorem ofInt_ends (closed : Hereditary settings.indexWidth P) (width : allowed .negativeWidth ∨ 0 < w)
    (n : Int) : Ends allowed (ofInt n w) fun d => P d ∧ HasBits d w := by
  by_cases pos : 0 < w
  · rw [ofInt_eq pos]
    exact .ok ⟨closed.const _ _, hasBits_const_bmod pos n⟩
  · have cause : allowed .negativeWidth := width.resolve_right pos
    have refused : ofInt n w = .error .negativeWidth := by
      simp only [ofInt, Word.signed, if_pos (not_lt.mp pos)]
      rfl
    rw [refused]
    exact .error cause

private theorem joinCandidates_ends (closed : Hereditary settings.indexWidth P)
    (width : allowed .negativeWidth ∨ 0 < w) (typed : AllBits ds v) (kept : ∀ d ∈ ds, P d) :
    Ends allowed (joinCandidates settings.indexWidth w ds) fun d =>
      P d ∧ (HasBits d v ∨ HasBits d w) := by
  match ds with
  | [] => exact (ofInt_ends closed width 1).mono fun d found => ⟨found.1, .inr found.2⟩
  | [d] => exact .ok ⟨kept d (by simp), .inl (typed d (by simp))⟩
  | d :: d' :: ds =>
    obtain ⟨g, hg, same⟩ := productOf_spec settings.indexWidth (by simp) typed
    exact .of_total ⟨g, hg, closed.product (by simp) typed kept hg, .inl same.hasBits⟩

private theorem factorsOf_bears (closed : Hereditary settings.indexWidth P) (typed : HasBits e w) (kept : P e) :
    AllBits (factorsOf e) w ∧ ∀ f ∈ factorsOf e, P f := by
  refine ⟨(factorsOf_spec typed).1, ?_⟩
  unfold factorsOf
  split
  · exact closed.below kept
  · simpa using kept

/-- A divisor of terms is made of factors of the first one that is not zero. -/
private theorem divisorOfTerms_ends (seeks : Seeks allowed settings P)
    (width : allowed .negativeWidth ∨ 0 < w) (found : ∀ t ∈ terms, Bears P t) :
    Ends allowed (divisorOfTerms settings w terms).outcome fun d =>
      Bears P d ∧ (AllBits terms w → HasBits d w) := by
  have closed := seeks.closed
  have constant (n : Int) : Ends allowed (ofInt n w) fun d =>
      Bears P d ∧ (AllBits terms w → HasBits d w) :=
    (ofInt_ends closed width n).mono fun d found => ⟨⟨found.1, w, found.2⟩, fun _ => found.2⟩
  by_cases filled : terms = []
  · subst filled
    exact constant 1
  cases left : terms.dropWhile isZero with
  | nil =>
    rw [divisorOfTerms_zeros settings w filled left]
    exact constant 0
  | cons first rest =>
    rw [divisorOfTerms_first settings w left]
    have sub : (first :: rest).Sublist terms := left ▸ List.dropWhile_sublist _
    have head := List.head?_dropWhile_not isZero terms
    obtain ⟨kept, v, typed⟩ := found first (sub.subset (by simp))
    have nonzero : first.isZero = false := by simpa [left] using head
    obtain ⟨ftyped, fkept⟩ := factorsOf_bears closed typed kept
    have fnonzero : allowed .notNonzeroConstant ∨ ∀ f ∈ factorsOf first, f.isZero = false := by
      refine seeks.nonzero.imp_right fun products => ?_
      unfold factorsOf
      split
      · exact products _ kept
      · simpa using nonzero
    have rtyped : ∀ t ∈ rest, ∃ w, HasBits t w := fun t ht =>
      (found t (sub.subset (by simp [ht]))).2
    refine (candidates_ends closed ftyped fkept fnonzero).bind fun seeds sought => ?_
    obtain ⟨styped, skept⟩ := sought
    obtain ⟨matched, hmatched, msub⟩ := matchingAll_sublist settings.indexWidth styped rtyped
    simp only [hmatched, ok_bind]
    have among : ∀ d ∈ matched.filter fun d => !isMinusOne d, d ∈ seeds := fun d hd =>
      msub.subset (List.mem_of_mem_filter hd)
    refine (joinCandidates_ends closed width (fun d hd => styped d (among d hd))
      fun d hd => skept d (among d hd)).mono ?_
    rintro d ⟨dkept, dtyped⟩
    refine ⟨⟨dkept, ?_⟩, fun same => ?_⟩
    · exact dtyped.elim (fun bits => ⟨v, bits⟩) fun bits => ⟨w, bits⟩
    · obtain rfl := typed.bits_unique (same first (sub.subset (by simp)))
      exact dtyped.elim id id

end candidates

section divisor

variable {es : List Expr}

/-- What may be searched: well-formed expressions, and if one cannot be computed there is a default
width. -/
structure SearchInput (allowed : Fault → Prop) (settings : Settings) (P : Expr → Prop) (es : List Expr) :
    Prop where
  some : es ≠ []
  fit : ∀ e ∈ es, e.WellFormed
  width : .uncomputable ∈ es → allowed .negativeWidth ∨ 0 < settings.indexWidth
  sought : ∀ e ∈ es, Sought P false e

private theorem divisorStep_ends {divisor : List Expr → Traced Expr} (seeks : Seeks allowed settings P)
    (finds : FindsBelow allowed P divisor n) (searched : SearchInput allowed settings P es)
    (light : ∀ e ∈ es, weight e ≤ n) :
    Ends allowed (divisorStep divisor settings es).outcome (Suits P es) := by
  cases es with
  | nil => exact absurd rfl searched.some
  | cons e es =>
    obtain ⟨o, hwidth, width⟩ : ∃ o, e.width = .ok o ∧ (allowed .negativeWidth ∨
        0 < if o.getD 0 = 0 then settings.indexWidth else o.getD settings.indexWidth) := by
      rcases searched.fit e (by simp) with rfl | ⟨w, typed⟩
      · exact ⟨none, rfl, searched.width (by simp)⟩
      · exact ⟨_, typed.width, .inr (by simpa [typed.pos.ne'] using typed.pos)⟩
    simp only [divisorStep, Traced.outcome_bind, Traced.outcome_lift, hwidth, ok_bind]
    refine (searchTermsOfList_ends seeks.closed finds searched.fit searched.sought light).bind ?_
    rintro terms ⟨found, bits⟩
    have texts : ∀ t ∈ terms, ∃ text, t.text = .ok text := by
      intro t ht
      obtain ⟨-, w, typed⟩ := found t ht
      exact typed.text
    rw [sayRow_ok settings _ texts, ok_bind]
    refine (divisorOfTerms_ends seeks width found).mono ?_
    rintro d ⟨bears, dtyped⟩
    refine ⟨bears, fun w typed => ?_⟩
    have here := typed e (by simp)
    obtain rfl : o = some w := Except.ok.inj (hwidth.symm.trans here.width)
    simp only [Option.getD_some, here.pos.ne', if_false] at dtyped
    exact dtyped (bits w typed)

/-- With more fuel than the expressions weigh, the search ends in a divisor that is built from what it
takes whole. -/
theorem divisorWithin_ends (seeks : Seeks allowed settings P) (fuel : Nat)
    (searched : SearchInput allowed settings P es) (enough : weightSum es < fuel) :
    Ends allowed (divisorWithin settings fuel es).outcome (Suits P es) := by
  induction fuel generalizing es with
  | zero => omega
  | succ fuel ih =>
    have finds : FindsBelow allowed P (divisorWithin settings fuel) fuel := by
      intro a b w ha hb first second light
      have typed : AllBits [a, b] w := by simpa using ⟨ha, hb⟩
      have both : SearchInput allowed settings P [a, b] :=
        ⟨by simp, fun e he => (typed e he).wellFormed, fun none => (nomatch typed _ none),
          by simpa using ⟨first, second⟩⟩
      exact (ih both (by simpa [weightSum] using light)).mono fun d h => ⟨h.bears.1, h.typed w typed⟩
    refine divisorStep_ends seeks finds searched fun e he => ?_
    have low := weight_add_length_le he
    have length := List.length_pos_of_ne_nil searched.some
    omega

/-- The search for a common divisor ends in one that is built from what it takes whole. -/
theorem commonDivisor_ends (seeks : Seeks allowed settings P)
    (searched : SearchInput allowed settings P es) :
    Ends allowed (commonDivisor settings es).outcome (Suits P es) := by
  refine divisorWithin_ends seeks _ searched ?_
  unfold divisorFuel
  omega

end divisor

end ShapeRecovery.Expr
