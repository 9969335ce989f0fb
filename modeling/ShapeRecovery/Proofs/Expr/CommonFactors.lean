import Mathlib.Data.List.Lattice
import ShapeRecovery.Proofs.Expr.SymbolicTerm

namespace ShapeRecovery.Expr.Factors

variable {m : Factors} {ms ms' : List Factors} {es : List Expr} {s : Symbol} {k n : Nat} {w iw : Int}

/-- The factors whose integer is not zero as a word. -/
def nonzero (w : Int) (ms : List Factors) : List Factors := ms.filter fun m => m.word w ≠ 0

theorem nonzero_skip (none : m.word w = 0) (ms : List Factors) : nonzero w (m :: ms) = nonzero w ms := by
  simp [nonzero, none]

theorem nonzero_cons (some : m.word w ≠ 0) (ms : List Factors) :
    nonzero w (m :: ms) = m :: nonzero w ms := by
  simp [nonzero, some]

/-- The symbols that all lists have, each as often as it is in every one of them. -/
def commonSymbols : List (List Symbol) → List Symbol
  | [] => []
  | us :: rest => rest.foldl List.bagInter us

private theorem le_count_commonSymbols {us : List Symbol} {rest : List (List Symbol)} :
    n ≤ (commonSymbols (us :: rest)).count s ↔ n ≤ us.count s ∧ ∀ vs ∈ rest, n ≤ vs.count s := by
  induction rest generalizing us with
  | nil => simp [commonSymbols]
  | cons vs rest ih =>
    have step : n ≤ (commonSymbols (us :: vs :: rest)).count s ↔ _ := @ih (us.bagInter vs)
    rw [step, List.count_bagInter, le_min_iff, and_assoc, List.forall_mem_cons]

/-- The greatest common divisor of the integers that are not zero as words, and the symbols that all of
these have. -/
def common (w : Int) (ms : List Factors) : Factors where
  number := gcdAll ((nonzero w ms).map (word w))
  symbols := commonSymbols ((nonzero w ms).map symbols)

theorem le_count_common (some : nonzero w ms ≠ []) :
    n ≤ (common w ms).symbols.count s ↔ ∀ m ∈ nonzero w ms, n ≤ m.symbols.count s := by
  obtain ⟨m, rest, front⟩ := List.exists_cons_of_ne_nil some
  have symbols : (common w ms).symbols = commonSymbols (m.symbols :: rest.map symbols) := by
    rw [common, front]
    rfl
  rw [symbols, le_count_commonSymbols, front, List.forall_mem_cons, List.forall_mem_map]

/-- Where all integers are zero as words, so is what is common. -/
theorem common_product_zero (iw : Int) (pos : 0 < w) (none : nonzero w ms = []) :
    (common w ms).product iw w = .ok (const 0 w) := by
  have nought : word w ⟨(gcdAll [] : Nat), commonSymbols []⟩ = 0 := Int.zero_bmod
  rw [common, none, product_eq iw pos]
  simp only [List.map_nil, nought]
  exact productOf_const iw (hasBits_zero pos)

theorem common_named (named : ∀ m ∈ ms, m.Named) : (common w ms).Named := by
  intro s hs
  rcases front : nonzero w ms with _ | ⟨m, rest⟩
  · simp [common, front, commonSymbols] at hs
  · have inside : m ∈ nonzero w ms := by simp [front]
    have counts := (le_count_common (List.ne_nil_of_mem inside)).mp (List.count_pos_iff.mpr hs) m inside
    exact named m (List.mem_of_mem_filter inside) s (List.count_pos_iff.mp counts)

/-- The absolute value of the integer as a word, and the symbols without their order. -/
def unsigned (w : Int) (m : Factors) : Nat × Multiset Symbol := ((m.word w).natAbs, m.symbols)

theorem dvd_common_iff :
    (k : Int) ∣ (common w ms).number ↔ ∀ p ∈ ms.map (unsigned w), k ∣ p.1 := by
  rw [common, Int.natCast_dvd_natCast, dvd_gcdAll, List.forall_mem_map, List.forall_mem_map]
  refine ⟨fun each m hm => ?_, fun each m hm => ?_⟩
  · by_cases none : m.word w = 0
    · simp [unsigned, none]
    · exact Int.natCast_dvd.mp (each m (List.mem_filter.mpr ⟨hm, by simpa using none⟩))
  · exact Int.natCast_dvd.mpr (each m (List.mem_of_mem_filter hm))

theorem nonzero_eq_nil_iff : nonzero w ms = [] ↔ ∀ p ∈ ms.map (unsigned w), p.1 = 0 := by
  simp [nonzero, List.filter_eq_nil_iff, unsigned]

theorem le_count_common_iff (some : nonzero w ms ≠ []) :
    n ≤ (common w ms).symbols.count s ↔
      ∀ p ∈ ms.map (unsigned w), p.1 ≠ 0 → n ≤ p.2.count s := by
  rw [le_count_common some, List.forall_mem_map]
  simp [nonzero, unsigned]

/-- What is common hangs neither on the signs nor on the order. -/
theorem common_congr (same : ∀ p, p ∈ ms'.map (unsigned w) ↔ p ∈ ms.map (unsigned w)) :
    (common w ms').number = (common w ms).number ∧
      (common w ms').symbols.Perm (common w ms).symbols := by
  refine ⟨?_, List.perm_iff_count.mpr fun s => ?_⟩
  · refine congrArg Nat.cast (eq_of_forall_dvd' fun k => ?_)
    rw [← Int.natCast_dvd_natCast, ← Int.natCast_dvd_natCast]
    refine dvd_common_iff.trans (Iff.trans ?_ dvd_common_iff.symm)
    simp only [same]
  have both : nonzero w ms' = [] ↔ nonzero w ms = [] := by
    rw [nonzero_eq_nil_iff, nonzero_eq_nil_iff]
    simp only [same]
  by_cases none : nonzero w ms = []
  · rw [common, common, none, both.mpr none]
  · have some : nonzero w ms' ≠ [] := fun none' => none (both.mp none')
    refine eq_of_forall_le_iff fun n => ?_
    rw [le_count_common_iff none, le_count_common_iff some]
    simp only [same]

/-- At most one prime divisor of the first integer is past the primes that are tried. -/
def Tried (w : Int) (ms : List Factors) : Prop :=
  ∀ m ∈ (nonzero w ms).head?, (Number.pastLimit (m.word w).natAbs).length ≤ 1

/-- Products of integers and unknowns have expressions. -/
theorem products_made (iw : Int) (wide : 2 ≤ w) (named : ∀ m ∈ ms, m.Named) :
    ∃ es, ms.mapM (product iw w) = .ok es ∧ List.Forall₂ (Makes iw w) ms es :=
  mapM_related fun m hm => m.product_spec iw wide (named m hm)

/-- The first term other than zero is found behind the zeros. -/
theorem first_term (made : List.Forall₂ (Makes iw w) ms es) :
    nonzero w ms = [] ∧ es.dropWhile isZero = [] ∨ ∃ m ms' e es',
      nonzero w ms = m :: nonzero w ms' ∧ es.dropWhile isZero = e :: es' ∧
        TermOf iw w (m.word w) m.symbols e ∧ List.Forall₂ (Makes iw w) ms' es' := by
  induction made with
  | nil => exact .inl ⟨rfl, rfl⟩
  | @cons m e ms es here rest ih =>
    rcases here with ⟨none, rfl⟩ | term
    · rwa [nonzero_skip none, List.dropWhile_cons_of_pos rfl]
    · refine .inr ⟨m, ms, e, es, nonzero_cons term.nonzero ms, ?_, term, rest⟩
      exact List.dropWhile_cons_of_neg (by simp [term.isZero])

end ShapeRecovery.Expr.Factors
