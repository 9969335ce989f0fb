import ShapeRecovery.Proofs.Expr.Graded

namespace ShapeRecovery.Expr

variable {es : List Expr} {a b e r : Expr} {v w c : Int}

/-- `P` holds of constants, of the operands of what it holds of, and of nodes over what it holds of, maxima
and products apart: of a maximum only if it is built, of a product only if its factors are sorted in and
are not joined further. -/
structure Inherited (P : Expr → Prop) : Prop where
  const : ∀ v w, P (.const v w)
  uncomputable : P .uncomputable
  below : ∀ {e}, P e → ∀ f ∈ e.operands, P f
  recur : ∀ {a b} (l), P a → P b → P (Expr.recur a b l)
  sum : ∀ {es}, (∀ e ∈ es, P e) → P (Expr.sum es)
  maximum : ∀ {signed iw es w r}, es ≠ [] → AllBits es w → (∀ e ∈ es, P e) →
    Expr.maximum signed iw es = .ok r → P r
  quotient : ∀ {a b}, P a → P b → P (.quotient a b)
  cast : ∀ {kind e w}, P e → P (.cast kind e w)
  otherFactors : ∀ {v w es}, (∀ f, es ≠ [f]) → P (product (.const v w :: es)) → P (product es)
  product : ∀ {es head r}, (∀ e ∈ es, P e) → (∀ e ∈ plainFactors es, P e) → LeadingFactor head →
    plainFactors es ≠ [] → scalable? (head ++ plainFactors es) = none →
    (∀ k ts, head = [k] → plainFactors es = [Expr.sum ts] → False) →
    ordered .product (head ++ plainFactors es) = .ok r → P r

/-- What holds below what it holds of is kept when operands are opened. -/
theorem flatten_of_below {P : Expr → Prop} (below : ∀ {e}, P e → ∀ f ∈ e.operands, P f) (op : Nary)
    (parts : ∀ e ∈ es, P e) : ∀ e ∈ flatten op es, P e := by
  intro e mem
  rcases mem_flatten mem with ⟨mem, -⟩ | ⟨fs, mem, part⟩
  · exact parts e mem
  · exact below (parts _ mem) e part

/-- A maximum takes over what nodes take over from their operands. -/
theorem handsOn_maximum {P : Expr → Prop} (const : ∀ v w, P (.const v w))
    (uncomputable : P .uncomputable) (below : ∀ {e}, P e → ∀ f ∈ e.operands, P f)
    (nary : ∀ {op es}, op ≠ .product → (∀ e ∈ es, P e) → P (.nary op es)) {signed : Bool} {iw : Int}
    (parts : ∀ e ∈ es, P e) (run : maximum signed iw es = .ok r) : P r := by
  have other : (if signed then Nary.signedMax else .unsignedMax) ≠ .product := by
    cases signed <;> simp
  rcases maximum_cases rfl run with rfl | ⟨top, constant, run⟩
  · exact uncomputable
  generalize (if signed then Nary.signedMax else .unsignedMax) = op at run other
  have kept : ∀ e ∈ distinctOthers (flatten op es) [] ++ top, P e := by
    refine List.forall_mem_append.mpr ⟨fun e he => ?_, ?_⟩
    · exact flatten_of_below below op parts e (by simpa using (mem_distinctOthers.mp he).imp_right And.left)
    · rcases constant with rfl | ⟨v, w, rfl⟩
      · simp
      · simpa using const v w
  exact ordered_all (nary other) kept run

namespace Inherited

variable {P : Expr → Prop} (closed : Inherited P)
include closed

theorem ofInt (run : Expr.ofInt v w = .ok r) : P r := by
  obtain ⟨u, -, rfl⟩ := ofInt_cases run
  exact closed.const u w

theorem asMultiple (here : P e) (run : Expr.asMultiple e = .ok (c, b)) : P b := by
  rcases asMultiple_cases run with ⟨w, rfl⟩ | ⟨w, fs, several, rfl, rfl⟩ | ⟨-, -, rfl⟩
  · exact closed.below here b (by simp [operands])
  · exact closed.otherFactors several here
  · exact here

theorem plain (parts : ∀ e ∈ es, P e) : ∀ e ∈ plainFactors es, P e := fun e he =>
  flatten_of_below closed.below .product parts e (List.mem_of_mem_filter he)

/-- A product is made of factors each of which the property holds of. -/
theorem graded : Graded P fun es => ∀ e ∈ es, P e where
  const := closed.const
  uncomputable := closed.uncomputable
  sum := ⟨closed.below, closed.sum⟩
  parts here := by
    have operands := closed.below here
    exact ⟨operands _ (by simp [Expr.operands]), operands _ (by simp [Expr.operands])⟩
  recur := closed.recur
  multiple here run := by
    have base := closed.asMultiple here run
    exact ⟨base, fun u w => by simpa using ⟨closed.const u w, base⟩⟩
  opened factors leading := by
    refine List.forall_mem_append.mpr ⟨?_, closed.plain factors⟩
    rcases leading with rfl | ⟨c, w, -, -, rfl⟩
    · simp
    · simpa using closed.const c w
  scaled factors scaled := by
    obtain ⟨scale, moving⟩ := List.forall_mem_append.mp fun e he =>
      factors e ((scalable_spec scaled).subset he)
    have inner := closed.below (moving _ (List.mem_singleton_self _))
    constructor
    · exact List.forall_mem_append.mpr ⟨scale, by simpa using inner _ (by simp [operands])⟩
    · exact List.forall_mem_append.mpr ⟨scale, by simpa using inner _ (by simp [operands])⟩
  spread _ factors e he := by
    obtain ⟨front, whole⟩ : P _ ∧ P _ := by simpa using factors
    simpa using ⟨front, closed.below whole e he⟩
  product factors leading some scaled alone run :=
    closed.product factors (closed.plain factors) leading some scaled alone run

theorem unsignedQuotient (first : P a) (second : P b) (run : Expr.unsignedQuotient a b = .ok r) : P r := by
  rcases unsignedQuotient_cases run with ⟨-, rfl⟩ | ⟨-, rfl⟩ | ⟨-, -, v, w, made⟩ | rfl
  · exact closed.uncomputable
  · exact first
  · exact closed.ofInt made
  · exact closed.quotient first second

theorem convert {kind : CastKind} (here : P e) (run : Expr.convert kind w e = .ok r) : P r :=
  convert_induction here (fun _ _ _ _ _ made => closed.ofInt made)
    (fun a _ whole => closed.below whole a (by simp [operands])) (fun _ here _ _ _ => closed.cast here) run

/-- Every constructor hands `P` on. -/
theorem hereditary (iw : Int) : Hereditary iw P where
  const := closed.const
  below := closed.below
  sum _ _ parts run := closed.graded.sumOf iw _ _ parts run
  product _ _ parts run := closed.graded.productOf iw _ _ parts run
  maximum some typed parts run := closed.maximum some typed parts run
  quotient _ _ first second run := closed.unsignedQuotient first second run
  cast _ _ here run := closed.convert here run
  recurrence _ start step := closed.recur _ start step

end Inherited

end ShapeRecovery.Expr
