import ShapeRecovery.Proofs.Expr.DivisionIdentity
import ShapeRecovery.Proofs.Expr.Matching
import ShapeRecovery.Proofs.Expr.Starts
import ShapeRecovery.Proofs.Expr.Widths

namespace ShapeRecovery.Expr

/-- An expression built from constants and unknown values by sums, products and recurrences. -/
abbrev Arithmetic : Expr → Prop :=
  BuiltOver (fun e => ∃ s b, e = unknown s b) fun _ => True

/-- An expression over the loops `L` that is linear in every unknown value, apart from factors that are this
value: where loops are in step, its divisions miss nothing. -/
structure Tractable (L : Loop → Prop) (w : Int) (e : Expr) : Prop where
  typed : HasBits e w
  within : Within L e
  linear : ∀ s b, residualDegree s b e ≤ 1

variable {L : Loop → Prop} {ρ : Valuation} {w iw : Int} {d e g q r term first : Expr}
  {ds es fs seeds kept terms : List Expr} {settings : Settings} {p : ProductParts}

section matching

theorem Tractable.quotient (tractable : Tractable L w e) (hd : HasBits d w)
    (run : quotRem iw e d = .ok (q, r)) : Tractable L w q where
  typed := (Divides.of_run tractable.typed hd run).quotient
  within := ((hereditary_within iw L).divideBy hd tractable.typed tractable.within run).1
  linear s b := ((NoLarger.divideBy hd tractable.typed run).residual s b).trans (tractable.linear s b)

theorem Tractable.divided (tractable : Tractable L w e) (inStep : InStep L ρ) (hd : HasBits d w)
    (run : quotRem iw e d = .ok (q, r)) (exact : r.isZero = true) :
    value w ρ e = value w ρ d * value w ρ q := by
  have total := (Divides.of_run tractable.typed hd run).total ρ
  have gap := divisionGap_inStep iw inStep hd tractable.typed tractable.within
    fun s b _ => tractable.linear s b
  rw [total, gap, value_of_isZero w ρ exact]
  ring

end matching

section candidates

theorem ResidualWithin.sublist {s : Symbol} {b : Int} {n : Nat} (within : ResidualWithin s b n es)
    (sub : ds.Sublist es) : ResidualWithin s b n ds :=
  within.imp (fun low => ((sub.map (factorDegree s b)).sum_le_sum (by simp)).trans low)
    fun ⟨alone, each⟩ => ⟨(sub.filter _).length_le.trans alone, fun e he => each e (sub.subset he)⟩

theorem ResidualWithin.mem {s : Symbol} {b : Int} {n : Nat} (within : ResidualWithin s b n es)
    (he : e ∈ es) : residualDegree s b e ≤ n := by
  rcases within with low | ⟨-, each⟩
  · have part := List.single_le_sum (by simp) _ (List.mem_map_of_mem (f := factorDegree s b) he)
    exact ((residualDegree_le_factorDegree e).trans part).trans low
  · exact each e he

end candidates

/-- What the search finds common divisors of: tractable expressions of numbers and unknown values in each
product of which at most one recurrence starts somewhere. -/
structure Divisible (L : Loop → Prop) (w : Int) (e : Expr) : Prop extends Tractable L w e where
  arithmetic : Arithmetic e
  single : e.singleStart = true

/-- What the search finds common divisors of the products of. -/
structure DivisibleFactors (L : Loop → Prop) (w : Int) (es : List Expr) : Prop where
  typed : AllBits es w
  within : ∀ e ∈ es, Within L e
  arithmetic : ∀ e ∈ es, Arithmetic e
  few : FewStarts es
  linear : ∀ s b, (es.map (factorDegree s b)).sum ≤ 1

section parts

theorem Divisible.factors (divisible : Divisible L w (product es)) : DivisibleFactors L w es := by
  obtain ⟨⟨-, few⟩, single⟩ := singleStart_product.mp divisible.single
  exact {
    typed := (HasBits.nary_iff.mp divisible.typed).2
    within := within_nary.mp divisible.within
    arithmetic := BuiltOver.product_iff.mp divisible.arithmetic
    few := ⟨single, few⟩
    linear := fun s b => residualDegree_product.ge.trans (divisible.linear s b) }

theorem DivisibleFactors.sublist (divisible : DivisibleFactors L w es) (sub : fs.Sublist es) :
    DivisibleFactors L w fs where
  typed e he := divisible.typed e (sub.subset he)
  within e he := divisible.within e (sub.subset he)
  arithmetic e he := divisible.arithmetic e (sub.subset he)
  few := ⟨fun e he => divisible.few.1 e (sub.subset he),
    ((sub.map startCount).sum_le_sum (by simp)).trans divisible.few.2⟩
  linear s b := ((sub.map (factorDegree s b)).sum_le_sum (by simp)).trans (divisible.linear s b)

/-- The product of divisible factors is divisible, and where loops are in step it has their value. -/
theorem DivisibleFactors.productOf (divisible : DivisibleFactors L w es) (inStep : InStep L ρ)
    (some : es ≠ []) (run : productOf iw es = .ok r) :
    Divisible L w r ∧ value w ρ r = (es.map (value w ρ)).prod := by
  obtain ⟨r', run', stands⟩ := productOf_yields iw inStep
    (fun e he => ⟨divisible.typed e he, divisible.within e he⟩ : Operands L w es) some
  obtain ⟨r'', run'', same⟩ := productOf_spec iw some divisible.typed
  cases run'.symm.trans run
  cases run''.symm.trans run
  refine ⟨⟨⟨stands.typed, stands.within, fun s b => ?_⟩, ?_, ?_⟩, stands.value_eq⟩
  · exact (graded_residualDegree s b 1).productOf iw _ _ (.inl (divisible.linear s b)) run
  · exact same.built_single divisible.arithmetic
  · exact graded_singleStart.productOf iw _ _ divisible.few run

/-- The factors of a product are taken apart into starts and steps: without a recurrence that starts
somewhere the product is a multiple of both, and with one it is made of multiples of both. -/
structure PartsFit (w : Int) (factors : List Expr) (parts : ProductParts) : Prop where
  inherit : ∀ P : Expr → Prop, (∀ a b l, P (recurrence a b l) → P a ∧ P b) → (∀ e ∈ factors, P e) →
    (∀ e ∈ parts.starts, P e) ∧ ∀ e ∈ parts.steps, P e
  lower : ∀ μ : Expr → Nat,
    (∀ a b l, recurrence a b l ∈ factors → μ a ≤ μ (recurrence a b l) ∧ μ b ≤ μ (recurrence a b l)) →
    (parts.starts.map μ).sum ≤ (factors.map μ).sum ∧ (parts.steps.map μ).sum ≤ (factors.map μ).sum
  filled : (∃ e ∈ factors, e.naryOp? ≠ some .product) → parts.steps ≠ []
  started : factors.any hasStart = true → parts.hasRecurrence = true ∧ parts.starts ≠ []
  noStart : factors.any hasStart = false → ∀ ρ,
    (parts.starts.map (value w ρ)).prod ∣ (factors.map (value w ρ)).prod ∧
      (parts.steps.map (value w ρ)).prod ∣ (factors.map (value w ρ)).prod
  oneStart : (factors.filter hasStart).length = 1 → ∀ ρ, ∃ x y,
    (factors.map (value w ρ)).prod =
      (parts.starts.map (value w ρ)).prod * x + (parts.steps.map (value w ρ)).prod * y

namespace PartsFit

variable {fs gs : List Expr} {p q : ProductParts} {a b : Expr} {l : Loop}

theorem nothing : PartsFit w [] .nothing where
  inherit := by simp [ProductParts.nothing]
  lower := by simp [ProductParts.nothing]
  filled := by simp
  started h := by simp at h
  noStart _ ρ := by simp [ProductParts.nothing]
  oneStart h := by simp at h

theorem append (left : PartsFit w fs p) (right : PartsFit w gs q) :
    PartsFit w (fs ++ gs) (p.append q) where
  inherit P below all := by
    obtain ⟨first, second⟩ := List.forall_mem_append.mp all
    have here := left.inherit P below first
    have there := right.inherit P below second
    exact ⟨List.forall_mem_append.mpr ⟨here.1, there.1⟩, List.forall_mem_append.mpr ⟨here.2, there.2⟩⟩
  lower μ low := by
    have first := left.lower μ fun a b l mem => low a b l (List.mem_append_left gs mem)
    have second := right.lower μ fun a b l mem => low a b l (List.mem_append_right fs mem)
    simp only [ProductParts.append, List.map_append, List.sum_append]
    omega
  filled := by
    rintro ⟨e, he, other⟩
    simp only [ProductParts.append, ne_eq, List.append_eq_nil_iff, not_and_or]
    exact (List.mem_append.mp he).imp (fun mem => left.filled ⟨e, mem, other⟩)
      fun mem => right.filled ⟨e, mem, other⟩
  started some := by
    rcases Bool.or_eq_true_iff.mp (List.any_append.symm.trans some) with some | some
    · simp [ProductParts.append, (left.started some).1, (left.started some).2]
    · simp [ProductParts.append, (right.started some).1, (right.started some).2]
  noStart none ρ := by
    obtain ⟨first, second⟩ := Bool.or_eq_false_iff.mp (List.any_append.symm.trans none)
    simp only [ProductParts.append, List.map_append, List.prod_append]
    exact ⟨mul_dvd_mul (left.noStart first ρ).1 (right.noStart second ρ).1,
      mul_dvd_mul (left.noStart first ρ).2 (right.noStart second ρ).2⟩
  oneStart one ρ := by
    -- The other list has no start, so its product is a multiple of that of its starts and that of its steps.
    have still {es : List Expr} (none : (es.filter hasStart).length = 0) : es.any hasStart = false := by
      simpa [List.filter_eq_nil_iff] using none
    rw [List.filter_append, List.length_append] at one
    have cases : (fs.filter hasStart).length = 1 ∧ (gs.filter hasStart).length = 0 ∨
        (fs.filter hasStart).length = 0 ∧ (gs.filter hasStart).length = 1 := by omega
    simp only [ProductParts.append, List.map_append, List.prod_append]
    rcases cases with ⟨one, none⟩ | ⟨none, one⟩
    · obtain ⟨x, y, total⟩ := left.oneStart one ρ
      obtain ⟨⟨u, starts⟩, v, steps⟩ := right.noStart (still none) ρ
      refine ⟨x * u, y * v, ?_⟩
      linear_combination ((gs.map (value w ρ)).prod) * total +
        (p.starts.map (value w ρ)).prod * x * starts + (p.steps.map (value w ρ)).prod * y * steps
    · obtain ⟨x, y, total⟩ := right.oneStart one ρ
      obtain ⟨⟨u, starts⟩, v, steps⟩ := left.noStart (still none) ρ
      refine ⟨u * x, v * y, ?_⟩
      linear_combination ((fs.map (value w ρ)).prod) * total +
        (q.starts.map (value w ρ)).prod * x * starts + (q.steps.map (value w ρ)).prod * y * steps

/-- A factor that does not change with a loop is searched on both sides. -/
theorem still (none : e.hasStart = false) : PartsFit w [e] (.still e) where
  inherit P _ all := by simpa [ProductParts.still] using all
  lower := by simp [ProductParts.still]
  filled _ := by simp [ProductParts.still]
  started h := by simp [none] at h
  noStart _ ρ := by simp [ProductParts.still]
  oneStart h := by simp [none] at h

theorem moving : PartsFit w [recurrence a b l] ⟨if a.isZero then [] else [a], [b], true⟩ where
  inherit P below all := by
    have parts := below a b l (all _ (by simp))
    split <;> simp [parts]
  lower μ low := by
    have parts := low a b l (by simp)
    split <;> simp [parts]
  filled _ := by simp
  started h := by simpa [hasStart] using h
  noStart h ρ := by
    have nought : a.isZero = true := by simpa [hasStart] using h
    simp [nought, value_of_isZero w ρ nought]
  oneStart h ρ := by
    have some : a.isZero = false := by
      by_contra nought
      simp [hasStart, nought] at h
    exact ⟨1, ρ.count l, by simp [some]⟩

end PartsFit

/-- The starts and the steps of divisible factors are divisible. -/
theorem DivisibleFactors.parts (divisible : DivisibleFactors L w es) (fit : PartsFit w es p) :
    DivisibleFactors L w p.starts ∧ DivisibleFactors L w p.steps := by
  have each := fit.inherit
    (fun e => (HasBits e w ∧ Within L e) ∧ Arithmetic e ∧ e.singleStart = true)
    (by
      rintro a b l ⟨⟨typed, within⟩, arithmetic, single⟩
      obtain ⟨ha, hb⟩ := HasBits.recurrence_iff.mp typed
      obtain ⟨-, first, second⟩ := within_recurrence.mp within
      obtain ⟨-, start, step⟩ := BuiltOver.recurrence_iff.mp arithmetic
      obtain ⟨one, other⟩ := singleStart_recurrence.mp single
      exact ⟨⟨⟨ha, first⟩, start, one⟩, ⟨hb, second⟩, step, other⟩)
    fun e he => ⟨⟨divisible.typed e he, divisible.within e he⟩, divisible.arithmetic e he,
      divisible.few.1 e he⟩
  have starts := fit.lower startCount fun a b l mem => startCount_parts (divisible.few.1 _ mem)
  have degrees (s : Symbol) (b : Int) := fit.lower (factorDegree s b) fun a c l _ => by
    rw [factorDegree_of_ne (e := recurrence a c l) (by simp)]
    exact ⟨(factorDegree_le a).trans (le_max_left ..), (factorDegree_le c).trans (le_max_right ..)⟩
  constructor
  · exact {
      typed := fun e he => (each.1 e he).1.1
      within := fun e he => (each.1 e he).1.2
      arithmetic := fun e he => (each.1 e he).2.1
      few := ⟨fun e he => (each.1 e he).2.2, starts.1.trans divisible.few.2⟩
      linear := fun s b => (degrees s b).1.trans (divisible.linear s b) }
  · exact {
      typed := fun e he => (each.2 e he).1.1
      within := fun e he => (each.2 e he).1.2
      arithmetic := fun e he => (each.2 e he).2.1
      few := ⟨fun e he => (each.2 e he).2.2, starts.2.trans divisible.few.2⟩
      linear := fun s b => (degrees s b).2.trans (divisible.linear s b) }

end parts

section terms

variable {divisor : List Expr → Traced Expr} {ts : List Expr}

/-- The terms stand for `e`: what divides all of them divides `e`. -/
structure Represents (L : Loop → Prop) (ρ : Valuation) (w : Int) (e : Expr) (ts : List Expr) : Prop where
  tractable : ∀ t ∈ ts, Tractable L w t
  divides : ∀ g, (∀ t ∈ ts, g ∣ value w ρ t) → g ∣ value w ρ e

theorem Represents.itself (tractable : Tractable L w e) : Represents L ρ w e [e] :=
  ⟨by simpa using tractable, fun g h => h e (by simp)⟩

end terms

/-- A product of an unknown value and two recurrences, one of which starts at zero, and six times the unknown
value. -/
def oneStart : List Expr :=
  [product [unknown ⟨"x", 1⟩ 64, recurrence (const 0 64) (const 4 64) innerLoop,
      recurrence (const 2 64) (const 6 64) outerLoop],
    product [const 6 64, unknown ⟨"x", 1⟩ 64]]

end ShapeRecovery.Expr
