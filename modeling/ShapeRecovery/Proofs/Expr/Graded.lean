import ShapeRecovery.Proofs.Expr.Hereditary

namespace ShapeRecovery.Expr

variable {add mul : Build} {es rest head : List Expr} {b e r : Expr} {l : Loop} {w c : Int}

/-- The constant in front of factors; it is left out if it is one, and there is none if it is zero. -/
def LeadingFactor (head : List Expr) : Prop :=
  head = [] ∨ ∃ c w, c ≠ 0 ∧ c ≠ 1 ∧ head = [const c w]

/-- The factors of a product of `es` that are no constants. -/
def plainFactors (es : List Expr) : List Expr :=
  (flatten .product es).filter fun e => !e.isConst

theorem isConst_of_plainFactors (mem : e ∈ plainFactors es) : e.isConst = false := by
  simpa using (List.mem_filter.mp mem).2

/-- `build` forms expressions of which `P` holds out of operands of which `Q` holds. -/
def Forms (Q : List Expr → Prop) (P : Expr → Prop) (build : Build) : Prop :=
  ∀ es r, Q es → build es = .ok r → P r

/-- Operands of which `P` holds make expressions of which it holds. -/
def HandsOn (P : Expr → Prop) (build : Build) : Prop :=
  ∀ es r, (∀ e ∈ es, P e) → build es = .ok r → P r

/-- `P` holds of sums and recurrences where it holds of their parts, and of a product where `Q` holds of
the factors, which `Q` follows from one step of the product to the next. -/
structure Graded (P : Expr → Prop) (Q : List Expr → Prop) : Prop where
  const : ∀ v w, P (.const v w)
  uncomputable : P .uncomputable
  sum : ∀ {es}, P (Expr.sum es) ↔ ∀ e ∈ es, P e
  parts : ∀ {a b l}, P (.recurrence a b l) → P a ∧ P b
  recur : ∀ {a b} (l), P a → P b → P (Expr.recur a b l)
  multiple : ∀ {e c b}, P e → asMultiple e = .ok (c, b) → P b ∧ ∀ u w, Q [.const u w, b]
  opened : ∀ {es head}, Q es → LeadingFactor head → Q (head ++ plainFactors es)
  scaled : ∀ {es a b l}, Q es → scalable? es = some (a, b, l) →
    Q ((es.filter fun f => !f.isRecurrence) ++ [a]) ∧ Q ((es.filter fun f => !f.isRecurrence) ++ [b])
  spread : ∀ {k ts}, k.isConst = true → Q [k, Expr.sum ts] → ∀ e ∈ ts, Q [k, e]
  product : ∀ {es head r}, Q es → LeadingFactor head → plainFactors es ≠ [] →
    scalable? (head ++ plainFactors es) = none →
    (∀ k ts, head = [k] → plainFactors es = [Expr.sum ts] → False) →
    ordered .product (head ++ plainFactors es) = .ok r → P r

/-- `P` holds of what the terms of a sum are multiples of, `Q` of these with a constant, and `P` of the
recurrences among the terms. -/
structure Terms.Of (P : Expr → Prop) (Q : List Expr → Prop) (t : Terms) : Prop where
  bases : ∀ p ∈ t.multiples, P p.1 ∧ ∀ u w, Q [.const u w, p.1]
  groups : ∀ e ∈ t.recurrences.flatMap groupTerms, P e

namespace Graded

variable {P : Expr → Prop} {Q : List Expr → Prop} (graded : Graded P Q)
include graded

theorem ofInt {v : Int} (run : Expr.ofInt v w = .ok r) : P r := by
  obtain ⟨u, -, rfl⟩ := ofInt_cases run
  exact graded.const u w

private theorem flattened (parts : ∀ e ∈ es, P e) : ∀ e ∈ flatten .sum es, P e := by
  intro e mem
  rcases mem_flatten mem with ⟨mem, -⟩ | ⟨fs, mem, part⟩
  · exact parts e mem
  · exact graded.sum.mp (parts _ mem) e part

theorem orderedSum (parts : ∀ e ∈ es, P e) (run : Expr.ordered .sum es = .ok r) : P r :=
  ordered_all graded.sum.mpr parts run

section sum

private theorem insertTerm {t t' : Terms} (held : t.Of P Q) (here : P e) (run : t.insert e = .ok t') :
    t'.Of P Q := by
  rcases Terms.insert_cases run with
    ⟨v, w, rfl, rfl⟩ | ⟨start, step, l, rfl, rfl⟩ | ⟨-, -, c, b, multiple, rfl⟩
  · exact ⟨held.bases, held.groups⟩
  · refine ⟨held.bases, fun f hf => ?_⟩
    have filed := (Terms.addRecurrence_perm l (start, step) t.recurrences).mem_iff.mp hf
    exact List.forall_mem_cons.mpr ⟨here, held.groups⟩ f filed
  · refine ⟨fun p hp => ?_, held.groups⟩
    rcases Terms.addMultiple_mem hp with same | ⟨q, hq, same⟩
    · exact same ▸ graded.multiple here multiple
    · exact same ▸ held.bases q hq

theorem terms {t : Terms} (parts : ∀ e ∈ es, P e) (run : Terms.ofList es = .ok t) : t.Of P Q := by
  refine Terms.ofList_induction (motive := fun es t => (∀ e ∈ es, P e) → t.Of P Q)
    (fun _ => ⟨by simp [Terms.empty], by simp [Terms.empty]⟩) ?_ run parts
  intro es e t t' ih step parts
  obtain ⟨before, here⟩ := List.forall_mem_append.mp parts
  exact graded.insertTerm (ih before) (here e (List.mem_singleton_self e)) step

theorem constantTerm (run : Expr.constantTerm w c = .ok es) : ∀ e ∈ es, P e := by
  rcases constantTerm_cases run with ⟨-, rfl⟩ | ⟨-, k, hk, rfl⟩
  · simp
  · simpa using graded.ofInt hk

omit graded in
theorem scaleTerms (products : Forms Q P mul) {ms : List (Expr × Int)}
    (bases : ∀ p ∈ ms, P p.1 ∧ ∀ u w, Q [.const u w, p.1])
    (run : Expr.scaleTerms mul w ms = .ok es) : ∀ e ∈ es, P e := by
  refine scaleTerms_all (fun p hp => (bases p hp).1) (fun p hp u e _ made => ?_) run
  exact products _ e ((bases p hp).2 u w) made

theorem mergeParts (sums : HandsOn P add) {parts : List (Expr × Expr)}
    (group : ∀ e ∈ groupTerms (l, parts), P e) (run : Expr.mergeParts add l parts = .ok r) : P r := by
  have both : ∀ p ∈ parts, P p.1 ∧ P p.2 := fun p hp =>
    graded.parts (group _ (List.mem_map_of_mem hp))
  rcases mergeParts_cases run with ⟨a, b, rfl, rfl⟩ | ⟨-, start, step, hstart, hstep, rfl⟩
  · exact group _ (by simp [groupTerms])
  · apply graded.recur l
    · exact sums _ _ (List.forall_mem_map.mpr fun p hp => (both p hp).1) hstart
    · exact sums _ _ (List.forall_mem_map.mpr fun p hp => (both p hp).2) hstep

theorem mergeAll (sums : HandsOn P add) {gs : List (Loop × List (Expr × Expr))}
    {merged : List (Loop × Expr)} (groups : ∀ e ∈ gs.flatMap groupTerms, P e)
    (run : Expr.mergeAll add gs = .ok merged) : ∀ p ∈ merged, P p.2 := by
  intro p hp
  obtain ⟨ps, hg, made⟩ := (mergeAll_mem run).mp hp
  exact graded.mergeParts sums (fun e he => groups e (List.mem_flatMap.mpr ⟨_, hg, he⟩)) made

theorem foldInto (sums : HandsOn P add) (term : P e) (parts : ∀ o ∈ rest, P o)
    (run : Expr.foldInto add l e rest = .ok r) : P r := by
  have moved : ∀ o ∈ rest.filter (fun o => !o.dependsOn l), P o :=
    fun o ho => parts o (List.mem_of_mem_filter ho)
  obtain ⟨front, hfront, joined⟩ := foldInto_cases run
  have here : P front := by
    rcases addInvariant_cases hfront with
      ⟨a, b, own, start, rfl, hstart, rfl⟩ | ⟨-, ⟨-, rfl⟩ | ⟨-, added⟩⟩
    · obtain ⟨first, second⟩ := graded.parts term
      exact graded.recur l (sums _ _ (List.forall_mem_cons.mpr ⟨first, moved⟩) hstart) second
    · exact term
    · exact sums _ _ (List.forall_mem_cons.mpr ⟨term, moved⟩) added
  rcases joined with ⟨-, rfl⟩ | ⟨-, sorted⟩
  · exact here
  · refine graded.orderedSum (List.forall_mem_cons.mpr ⟨here, fun o ho => ?_⟩) sorted
    exact parts o (List.mem_of_mem_filter ho)

theorem joinLike (sums : HandsOn P add) {merged : List (Loop × Expr)} (plain : ∀ o ∈ rest, P o)
    (moving : ∀ p ∈ merged, P p.2) (run : Expr.joinLike add w rest merged = .ok r) : P r := by
  rcases joinLike_cases run with ⟨-, ⟨-, made⟩ | ⟨-, sorted⟩⟩ | ⟨first, more, rfl, folded⟩
  · exact graded.ofInt made
  · exact graded.orderedSum plain sorted
  · have terms : ∀ o ∈ (first :: more).map Prod.snd, P o := List.forall_mem_map.mpr moving
    obtain ⟨chosen, left⟩ := List.forall_mem_cons.mp fun o ho =>
      terms o (takeInnermost_subset first more ho)
    exact graded.foldInto sums chosen (List.forall_mem_append.mpr ⟨plain, left⟩) folded

theorem sumStep (iw : Int) (sums : HandsOn P add) (products : Forms Q P mul) :
    HandsOn P (Expr.sumStep add mul iw) := by
  intro es r parts run
  rcases sumStep_cases run with ⟨-, rfl⟩ | ⟨w, t, like, -, ht, hlike, run⟩
  · exact graded.uncomputable
  obtain ⟨c, head, scaled, merged, -, hhead, hscaled, hmerged, rfl⟩ := collectLike_cases hlike
  have held := graded.terms (graded.flattened parts) ht
  have front := graded.constantTerm hhead
  have others := scaleTerms products held.bases hscaled
  have moving := graded.mergeAll sums held.groups hmerged
  exact graded.joinLike sums (List.forall_mem_append.mpr ⟨front, others⟩) moving run

end sum

section product

theorem joinFactors (sums : HandsOn P add) (products : Forms Q P mul) (factors : Q es)
    (leading : LeadingFactor head) (some : plainFactors es ≠ [])
    (run : Expr.joinFactors add mul head (plainFactors es) = .ok r) : P r := by
  have all := graded.opened factors leading
  cases scaled : scalable? (head ++ plainFactors es) with
  | some parts =>
    obtain ⟨a, b, l⟩ := parts
    obtain ⟨first, second⟩ := graded.scaled all scaled
    obtain ⟨start, step, hstart, hstep, rfl⟩ := joinFactors_scaled scaled run
    exact graded.recur l (products _ _ first hstart) (products _ _ second hstep)
  | none =>
    rcases joinFactors_cases scaled run with ⟨k, ts, terms, rfl, only, multiplied, added⟩ | ⟨alone, run⟩
    · rw [only] at all
      have constant : k.isConst = true := by
        rcases leading with none | ⟨c, w, -, -, single⟩
        · cases none
        · cases single
          rfl
      refine sums _ _ (fun t ht => ?_) added
      obtain ⟨e, he, made⟩ := distribute_mem multiplied t ht
      exact products _ t (graded.spread constant all e he) made
    · exact graded.product factors leading some scaled alone run

theorem productStep (iw : Int) (sums : HandsOn P add) (products : Forms Q P mul) :
    Forms Q P (Expr.productStep add mul iw) := by
  intro es r factors run
  rcases productStep_cases run with
    ⟨-, rfl⟩ | ⟨v, w, -, made⟩ | ⟨w, c, head, -, hc, nonzero, hhead, some, run⟩
  · exact graded.uncomputable
  · exact graded.ofInt made
  refine graded.joinFactors sums products factors ?_ some run
  rcases constantHead_run (constantFactor_run (.inl rfl) hc) hhead with none | ⟨other, single⟩
  · exact .inl none
  · exact .inr ⟨c, w, nonzero, other, single⟩

end product

/-- Sums and products of any depth hand `P` on. -/
theorem within (iw : Int) (fuel : Nat) :
    HandsOn P (sumWithin iw fuel) ∧ Forms Q P (productWithin iw fuel) := by
  induction fuel with
  | zero =>
    constructor <;>
    · intro es r _ run
      cases run
  | succ fuel ih =>
    obtain ⟨sums, products⟩ := ih
    exact ⟨graded.sumStep iw sums products, graded.productStep iw sums products⟩

theorem sumOf (iw : Int) : HandsOn P (Expr.sumOf iw) := fun _ _ => (graded.within iw _).1 _ _

theorem productOf (iw : Int) : Forms Q P (Expr.productOf iw) := fun _ _ => (graded.within iw _).2 _ _

end Graded

end ShapeRecovery.Expr
