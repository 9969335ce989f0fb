import ShapeRecovery.Proofs.Expr.LinearNormalForm
import ShapeRecovery.Proofs.Expr.MaximumLaws

namespace ShapeRecovery.Expr

/-- Rebuilt over its own operands, whatever occurs in `e` is given back. -/
def Stable (iw : Int) (e : Expr) : Prop :=
  ∀ f, Occurs f e → withOperands iw f f.operands = .ok f

variable {es fs ts : List Expr} {a b e f r : Expr} {op : Nary} {kind : CastKind} {signed : Bool}
  {v w c d iw : Int} {n : Nat}

theorem Stable.operands (stable : Stable iw e) : ∀ f ∈ e.operands, Stable iw f :=
  fun _ part f inside => stable f (.operand part inside)

theorem stable_node (here : withOperands iw e e.operands = .ok e) (parts : ∀ f ∈ e.operands, Stable iw f) :
    Stable iw e := by
  intro f inside
  rcases occurs_iff.mp inside with rfl | ⟨g, part, inside⟩
  · exact here
  · exact parts g part f inside

theorem stable_const (v w : Int) : Stable iw (const v w) := stable_node rfl (by simp [operands])

private theorem stable_unknown (s : Symbol) (w : Int) : Stable iw (unknown s w) :=
  stable_node rfl (by simp [operands])

theorem stable_uncomputable : Stable iw uncomputable := stable_node rfl (by simp [operands])

theorem stable_ofInt (run : ofInt v w = .ok r) : Stable iw r := by
  obtain ⟨u, -, rfl⟩ := ofInt_cases run
  exact stable_const u w

theorem stable_flatten (op : Nary) (stable : ∀ e ∈ es, Stable iw e) : ∀ e ∈ flatten op es, Stable iw e :=
  flatten_of_below Stable.operands op stable

section product

/-- The product of the factors of a product is that product. -/
theorem productOf_itself (iw : Int) (plain : Plain w (.nary .product fs)) :
    productOf iw fs = .ok (.nary .product fs) := by
  have fit := plain.operandsFit
  have filled : fs ≠ [] := List.ne_nil_of_length_pos (Nat.zero_lt_of_lt fit.several)
  have typed := Plain.allBits plain.parts
  have flat : flatten .product fs = flatten .product [.nary .product fs] := by
    rw [flatten_opened fit.opened]
    simp [flatten]
  obtain ⟨c, b, multiple⟩ : ∃ c b, IsMultiple w c b (.nary .product fs) := by
    rcases plain_cases plain with ⟨v, same, -⟩ | ⟨ts, same, -⟩ | multiple
    · cases same
    · cases same
    · exact multiple
  obtain ⟨r, run, -⟩ := productOf_spec iw filled typed
  rw [run, productStep_multiple multiple filled typed flat run]

theorem stable_product (plain : Plain w (.nary .product fs)) (parts : ∀ f ∈ fs, Stable iw f) :
    Stable iw (.nary .product fs) :=
  stable_node (productOf_itself iw plain) parts

end product

section sum

/-- A sorted sum of terms has no other terms. -/
private theorem termsOf_ordered (opened : ∀ t ∈ ts, t.naryOp? ≠ some .sum) (run : ordered .sum ts = .ok r) :
    ∀ t ∈ termsOf r, t ∈ ts := by
  rcases arranged_of_ordered run with rfl | ⟨-, fs, perm, rfl⟩
  · intro t ht
    by_cases zero : r.isZero = true
    · simp [termsOf, zero] at ht
    · rwa [termsOf_single (opened r (by simp)) (by simpa using zero)] at ht
  · rw [termsOf_sum]
    exact fun t ht => perm.mem_iff.mp ht

/-- The terms of a sum are multiples of what the operands are multiples of. -/
theorem termsOf_sumWithin (filled : es ≠ []) (plain : ∀ e ∈ es, Plain w e)
    (run : sumWithin iw n es = .ok r) : ∀ t ∈ termsOf r, ∃ k c, IsTerm w k c t ∧
      ∀ b ∈ k, ∃ e ∈ flatten .sum es, ∃ d, asMultiple e = .ok (d, b) := by
  cases n with
  | zero => cases run
  | succ n =>
    obtain ⟨ts, -, terms, ⟨-, rfl⟩ | sorted⟩ :=
      sumStep_terms (makesMultiples_productWithin w iw n) filled plain run
    · simp [termsOf, isZero]
    · refine fun t ht => terms t (termsOf_ordered (fun t ht => ?_) sorted t ht)
      obtain ⟨k, c, term, -⟩ := terms t ht
      exact term.opened

theorem expanded_sumWithin (filled : es ≠ []) (plain : ∀ e ∈ es, Plain w e)
    (run : sumWithin iw n es = .ok r) : Expanded w (termsOf r) := by
  refine expanded_of_terms (.sumWithin filled plain run) fun t ht => ?_
  obtain ⟨k, c, term, -⟩ := termsOf_sumWithin filled plain run t ht
  exact ⟨k, c, term⟩

/-- The sum of the terms of a sum is that sum. -/
theorem sumOf_itself (iw : Int) (plain : Plain w (.nary .sum ts))
    (expanded : Expanded w (termsOf (.nary .sum ts))) : sumOf iw ts = .ok (.nary .sum ts) := by
  have fit := plain.operandsFit
  have filled : ts ≠ [] := List.ne_nil_of_length_pos (Nat.zero_lt_of_lt fit.several)
  obtain ⟨r, run, -⟩ := sumOf_spec iw filled (Plain.allBits plain.parts)
  have same : coordinates w r = coordinates w (.nary .sum ts) := by
    rw [coordinates_sumWithin filled plain.parts run, coordinates_nary, totals_of_opened fit.opened]
  have again := expanded_sumWithin filled plain.parts run
  rw [run, eq_of_expanded (.sumWithin filled plain.parts run) plain again expanded same]

/-- The factors of what `e` is a multiple of are `e` or among its operands, or theirs. -/
private theorem stable_factors (stable : Stable iw e) (run : asMultiple e = .ok (c, b)) :
    ∀ f ∈ factorsOf b, Stable iw f := by
  have ofStable {g : Expr} (stable : Stable iw g) : ∀ f ∈ factorsOf g, Stable iw f := by
    unfold factorsOf
    split
    · exact stable.operands
    · simpa using stable
  rcases asMultiple_cases run with ⟨w, rfl⟩ | ⟨w, fs, -, rfl, rfl⟩ | ⟨-, -, rfl⟩
  · exact ofStable (stable.operands b (by simp [operands]))
  · exact fun f hf => stable.operands f (List.mem_cons_of_mem _ hf)
  · exact ofStable stable

/-- A multiple of stable factors is stable. -/
private theorem stable_term {k : Option Expr} (plain : Plain w e) (term : IsTerm w k c e)
    (factors : ∀ b ∈ k, ∀ f ∈ factorsOf b, Stable iw f) : Stable iw e := by
  obtain ⟨base, nonzero, -, rfl⟩ := term
  cases k with
  | none => exact stable_const c w
  | some b =>
    have base := base b rfl
    have parts := factors b rfl
    change Plain w (scaledBy w c b) at plain
    change Stable iw (scaledBy w c b)
    by_cases one : c = 1
    · rw [one, scaledBy_one] at plain ⊢
      rcases base.factors with ⟨-, alone⟩ | ⟨fs, rfl, -, -⟩
      · exact parts b (by simp [alone])
      · exact stable_product plain parts
    · rw [scaledBy_of_ne nonzero one] at plain ⊢
      exact stable_product plain (List.forall_mem_cons.mpr ⟨stable_const c w, parts⟩)

theorem stable_sumWithin (filled : es ≠ []) (plain : ∀ e ∈ es, Plain w e)
    (stable : ∀ e ∈ es, Stable iw e) (run : sumWithin iw n es = .ok r) : Stable iw r := by
  have whole := Plain.sumWithin filled plain run
  have terms : ∀ t ∈ termsOf r, Plain w t → Stable iw t := by
    intro t ht plain'
    obtain ⟨k, c, term, origin⟩ := termsOf_sumWithin filled plain run t ht
    refine stable_term plain' term fun b hb => ?_
    obtain ⟨e, he, d, part⟩ := origin b hb
    exact stable_factors (stable_flatten .sum stable e he) part
  by_cases zero : r.isZero = true
  · cases r with
    | const v u => exact stable_const v u
    | _ => cases zero
  by_cases sum : r.naryOp? = some .sum
  · obtain ⟨ts, rfl⟩ := naryOp_eq.mp sum
    have expanded := expanded_sumWithin filled plain run
    rw [termsOf_sum] at terms
    exact stable_node (sumOf_itself iw whole expanded) fun t ht => terms t ht (whole.parts t ht)
  · exact terms r (by simp [termsOf_single sum (by simpa using zero)]) whole

end sum

section constructors

private theorem stable_constantHead (pos : 0 < w) (run : constantHead w c = .ok es) :
    ∀ k ∈ es, Plain w k ∧ Stable iw k := by
  rcases constantHead_cases run with ⟨-, rfl⟩ | ⟨-, k, made, rfl⟩
  · simp
  · simpa using ⟨.const pos made, stable_ofInt made⟩

/-- The terms of a stable sum stay stable under a factor. -/
private theorem stable_distribute {k : Expr} (front : Plain w k ∧ Stable iw k) (plain : Plain w (sum ts))
    (stable : Stable iw (sum ts))
    (products : ∀ es r, es ≠ [] → (∀ e ∈ es, Plain w e) → (∀ e ∈ es, Stable iw e) →
      productWithin iw n es = .ok r → Stable iw r)
    (run : distribute (productWithin iw n) k ts = .ok es) :
    es ≠ [] ∧ (∀ e ∈ es, Plain w e) ∧ ∀ e ∈ es, Stable iw e := by
  have each : ∀ t ∈ es, Plain w t ∧ Stable iw t := by
    intro t ht
    obtain ⟨e, he, made⟩ := distribute_mem run t ht
    have plain : ∀ f ∈ [k, e], Plain w f := by simpa using ⟨front.1, plain.parts e he⟩
    have stable : ∀ f ∈ [k, e], Stable iw f := by simpa using ⟨front.2, stable.operands e he⟩
    exact ⟨.productWithin (by simp) plain made, products _ t (by simp) plain stable made⟩
  have several := plain.operandsFit.several
  exact ⟨distribute_ne_nil (List.ne_nil_of_length_pos (Nat.zero_lt_of_lt several)) run,
    fun t ht => (each t ht).1, fun t ht => (each t ht).2⟩

theorem stable_productWithin (filled : es ≠ []) (plain : ∀ e ∈ es, Plain w e)
    (stable : ∀ e ∈ es, Stable iw e) (run : productWithin iw n es = .ok r) : Stable iw r := by
  induction n generalizing es r with
  | zero => cases run
  | succ n ih =>
    have whole := Plain.productWithin filled plain run
    rcases productStep_cases run with ⟨-, rfl⟩ | ⟨v, u, -, made⟩ | ⟨u, c, head, hu, -, -, hhead, -, join⟩
    · exact stable_uncomputable
    · exact stable_ofInt made
    have typed := Plain.allBits plain
    rw [commonWidth_eq iw (allBits_flatten typed) (flatten_ne_nil typed filled)] at hu
    cases hu
    have front : ∀ k ∈ head, Plain w k ∧ Stable iw k := stable_constantHead (typed.pos filled) hhead
    have others : ∀ f ∈ plainFactors es, Plain w f ∧ Stable iw f := fun f hf =>
      have mem := List.mem_of_mem_filter hf
      ⟨(Plain.flatten .product plain f mem).1, stable_flatten .product stable f mem⟩
    have all := List.forall_mem_append.mpr ⟨front, others⟩
    have unscaled := scalable_none fun f hf => (all f hf).1.free.still
    rcases joinFactors_cases unscaled join with ⟨k, ts, terms, rfl, only, multiplied, added⟩ | ⟨-, sorted⟩
    · obtain ⟨plainSum, stableSum⟩ := others (sum ts) (by simp [only])
      obtain ⟨some, plain, stable⟩ := stable_distribute (front k (by simp)) plainSum stableSum
        (fun _ _ some plain stable run => ih some plain stable run) multiplied
      exact stable_sumWithin some plain stable added
    · rcases arranged_of_ordered sorted with single | ⟨-, fs, perm, rfl⟩
      · exact (all r (single ▸ List.mem_singleton_self r)).2
      · exact stable_product whole fun f hf => (all f (perm.mem_iff.mp hf)).2

private theorem stable_maximum (filled : es ≠ []) (plain : ∀ e ∈ es, Plain w e) (stable : ∀ e ∈ es, Stable iw e)
    (run : maximum signed iw es = .ok r) : Stable iw r := by
  have whole := Plain.maximum filled plain run
  have typed := Plain.allBits plain
  have flat := stable_flatten (if signed then .signedMax else .unsignedMax) stable
  have some : flatten (if signed then .signedMax else .unsignedMax) es ≠ [] := flatten_ne_nil typed filled
  rw [maximum_eq iw rfl filled typed] at run
  generalize kind : (if signed then Nary.signedMax else .unsignedMax) = op at *
  generalize flatten op es = es at flat some run
  have kept := keptOperands_all signed w flat fun v => stable_const _ w
  rcases arranged_of_ordered run with single | ⟨-, fs, perm, rfl⟩
  · exact kept r (by simp [single])
  · have fits : MaximumFits op fs :=
      ⟨whole.operandsFit, perm.nodup_iff.mpr (keptOperands_nodup signed w es)⟩
    have itself := maximum_of_fits iw kind fits (Plain.allProper whole.parts)
    refine stable_node ?_ fun f hf => kept f (perm.mem_iff.mp hf)
    subst kind
    cases signed <;> exact itself

private theorem stable_unsignedQuotient (first : Stable iw a) (second : Stable iw b)
    (run : unsignedQuotient a b = .ok r) : Stable iw r := by
  rcases unsignedQuotient_cases run with ⟨-, rfl⟩ | ⟨-, rfl⟩ | ⟨-, -, v, w, made⟩ | rfl
  · exact stable_uncomputable
  · exact first
  · exact stable_ofInt made
  · exact stable_node run (by simpa [operands] using ⟨first, second⟩)

/-- A cast that was made is made again of its operand. -/
private theorem stable_cast (stable : Stable iw e) (run : convert kind w e = .ok (.cast kind e w)) :
    Stable iw (.cast kind e w) :=
  stable_node run (by simpa [operands] using stable)

private theorem stable_convert (stable : Stable iw e) (run : convert kind w e = .ok r) : Stable iw r :=
  convert_induction stable (fun _ _ _ _ _ made => stable_ofInt made)
    (fun a _ whole => whole.operands a (by simp [operands]))
    (fun _ stable _ _ made => stable_cast stable made) run

theorem stable_negation (plain : Plain w e) (stable : Stable iw e) (run : negation iw e = .ok r) :
    Stable iw r := by
  obtain ⟨k, hk, run⟩ := negation_run plain.typed run
  have both : ∀ f ∈ [k, e], Plain w f := by simpa using ⟨.const plain.pos hk, plain⟩
  exact stable_productWithin (by simp) both (by simpa using ⟨stable_ofInt hk, stable⟩) run

end constructors

/-- What is assembled from constants and unknowns is stable. -/
theorem Assembled.stable (assembled : Assembled iw e w) : Stable iw e := by
  induction assembled with
  | const _ run => exact stable_ofInt run
  | unknown _ _ => exact stable_unknown _ _
  | sum filled parts run ih => exact stable_sumWithin filled (fun e he => (parts e he).plain) ih run
  | product filled parts run ih =>
    exact stable_productWithin filled (fun e he => (parts e he).plain) ih run
  | negation arg run ih => exact stable_negation arg.plain ih run
  | @difference a b w r lhs rhs run first second =>
    obtain ⟨n, hn, run⟩ := bind_eq_ok.mp run
    have plain : ∀ f ∈ [a, n], Plain w f := by simpa using ⟨lhs.plain, rhs.plain.negation hn⟩
    have negated := stable_negation rhs.plain second hn
    exact stable_sumWithin (by simp) plain (by simpa using ⟨first, negated⟩) run
  | maximum filled parts run ih => exact stable_maximum filled (fun e he => (parts e he).plain) ih run
  | quotient _ _ run first second => exact stable_unsignedQuotient first second run
  | cast _ _ run ih => exact stable_convert ih run

section substitution

variable {env : Expr → Option Expr}

/-- A substitution that knows nothing of what occurs in a stable expression leaves it alone. -/
theorem substitute_stable (typed : HasBits e w) (stable : Stable iw e)
    (fresh : ∀ f, Occurs f e → env f = none) : substitute iw env e = .ok e := by
  have operand {e f : Expr} (stable : Stable iw e) (fresh : ∀ g, Occurs g e → env g = none)
      (ih : Stable iw f → (∀ g, Occurs g f → env g = none) → substitute iw env f = .ok f)
      (part : f ∈ e.operands) : substitute iw env f = .ok f :=
    ih (stable.operands f part) fun g inside => fresh g (.operand part inside)
  induction typed with
  | const | unknown => simp only [substitute, fresh _ .here]
  | @nary op es w several parts ih =>
    have all : es.mapM (substitute iw env) = .ok es := by
      simpa using mapM_ok fun e he => operand stable fresh (ih e he) he
    cases es with
    | nil => simp at several
    | cons e es =>
      simp only [substitute, fresh _ .here, substituteList_eq_mapM, all, ok_bind]
      exact stable _ .here
  | quotient _ _ iha ihb =>
    have first := operand stable fresh iha (by simp [operands])
    have second := operand stable fresh ihb (by simp [operands])
    simp only [substitute, fresh _ .here, first, second, ok_bind]
    exact stable _ .here
  | narrow _ _ _ ih | signExtend _ _ ih | zeroExtend _ _ ih =>
    have arg := operand stable fresh ih (by simp [operands])
    simp only [substitute, fresh _ .here, arg, ok_bind]
    exact stable _ .here
  | recurrence _ _ iha ihb =>
    have first := operand stable fresh iha (by simp [operands])
    have second := operand stable fresh ihb (by simp [operands])
    simp only [substitute, fresh _ .here, first, second, ok_bind]
    exact stable _ .here

end substitution

/-- Canonicalization is idempotent: what is assembled from constants and unknowns is given back over its
own operands, and by every substitution that knows none of what occurs in it. -/
theorem assembled_rebuilt (assembled : Assembled iw e w) :
    withOperands iw e e.operands = .ok e ∧
      ∀ env : Expr → Option Expr, (∀ f, Occurs f e → env f = none) → substitute iw env e = .ok e :=
  ⟨assembled.stable e .here, fun _ fresh => substitute_stable assembled.plain.typed assembled.stable fresh⟩

/-- The sum of two single bits, where one is stored as minus one. -/
def bitSum : Expr :=
  .nary .sum [.nary .product [const (-1) 1, unknown ⟨"p", 3⟩ 1],
    .nary .product [const (-1) 1, unknown ⟨"q", 4⟩ 1]]

/-- That sum in the highest place of a byte. -/
def highBit : Expr := .nary .product [const (-128) 8, cast .zeroExtend bitSum 8]

/-- Bytes added up, with a maximum counted twice. -/
def byteSum : Expr := .nary .sum [const 1 8, highBit, .nary .product [const 2 8, mixedMaximum]]

theorem assembled_byteSum : Assembled 64 byteSum 8 := by
  have number {v : Int} (run : ofInt v 8 = .ok (const v 8)) : Assembled 64 (const v 8) 8 :=
    .const (by decide) run
  have x : Assembled 64 (unknown ⟨"x", 1⟩ 8) 8 := .unknown (by decide +kernel) (by decide)
  have y : Assembled 64 (unknown ⟨"y", 2⟩ 8) 8 := .unknown (by decide +kernel) (by decide)
  have p : Assembled 64 (unknown ⟨"p", 3⟩ 1) 1 := .unknown (by decide +kernel) (by decide)
  have q : Assembled 64 (unknown ⟨"q", 4⟩ 1) 1 := .unknown (by decide +kernel) (by decide)
  have added : sumOf 64 [unknown ⟨"p", 3⟩ 1, unknown ⟨"q", 4⟩ 1] = .ok bitSum := by decide +kernel
  have bits : Assembled 64 bitSum 1 := .sum (by simp) (by simpa using ⟨p, q⟩) added
  have wide : Assembled 64 (cast .zeroExtend bitSum 8) 8 :=
    .cast bits (show Admits .zeroExtend 1 8 by simp [Admits]) (by decide +kernel)
  have shifted : productOf 64 [const (-128) 8, cast .zeroExtend bitSum 8] = .ok highBit := by
    decide +kernel
  have high := Assembled.product (by simp) (by simpa using ⟨number (v := -128) rfl, wide⟩) shifted
  have below : maximum true 64 [unknown ⟨"y", 2⟩ 8, const 3 8] =
      .ok (.nary .signedMax [const 3 8, unknown ⟨"y", 2⟩ 8]) := by decide +kernel
  have inner := Assembled.maximum (by simp) (by simpa using ⟨y, number (v := 3) rfl⟩) below
  have above : maximum false 64 mixedMaximum.operands = .ok mixedMaximum := by decide +kernel
  have mixed : Assembled 64 mixedMaximum 8 :=
    .maximum (by simp [mixedMaximum, operands]) (by simpa [mixedMaximum, operands] using ⟨x, inner⟩) above
  have total : sumOf 64 [highBit, mixedMaximum, mixedMaximum, const 1 8] = .ok byteSum := by
    decide +kernel
  exact .sum (by simp) (by simpa using ⟨high, mixed, number (v := 1) rfl⟩) total

/-- No iterations of a loop are in it that a substitution could replace. -/
theorem assembled_rebuilt_byteSum : Assembled 64 byteSum 8 ∧
    (∀ f, Occurs f byteSum → lookup [(byteCounter, const 0 8)] f = none) ∧
    withOperands 64 byteSum byteSum.operands = .ok byteSum ∧
      substitute 64 (lookup [(byteCounter, const 0 8)]) byteSum = .ok byteSum := by
  have fresh : ∀ f, Occurs f byteSum → lookup [(byteCounter, const 0 8)] f = none := by
    intro f inside
    have other : byteCounter ≠ f := by
      intro same
      rw [← same] at inside
      exact absurd (assembled_byteSum.plain.free.occurs inside).still (by decide)
    simp [lookup, other]
  obtain ⟨rebuilt, kept⟩ := assembled_rebuilt assembled_byteSum
  exact ⟨assembled_byteSum, fresh, rebuilt, kept _ fresh⟩

end ShapeRecovery.Expr
