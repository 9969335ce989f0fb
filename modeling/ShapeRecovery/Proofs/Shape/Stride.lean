import ShapeRecovery.Proofs.Expr.Nest

namespace ShapeRecovery

open ShapeRecovery.Expr

/-- The greatest common divisor of the constants in the first `d` subscripts of each row. -/
def outerGcd (rows : List (List Expr)) (d : Nat) : Nat :=
  gcdAll (rows.flatMap fun row => (row.take d).flatMap constants)

/-- The stride of the dimensions from `d` up to the declared ones, which begin with `m`. -/
def stride (rows : List (List Expr)) (m d : Nat) : Nat :=
  if d < m then outerGcd rows d else 1

/-- Some rows of `n` subscripts each, which are constant nests. -/
structure ConstantRows (w : Int) (n : Nat) (rows : List (List Expr)) : Prop where
  some : rows ≠ []
  length : ∀ row ∈ rows, row.length = n
  nests : ∀ row ∈ rows, ∀ s ∈ row, ConstantNest w s

variable {w : Int} {rows : List (List Expr)} {m n d : Nat}

theorem stride_inner (rows : List (List Expr)) (m : Nat) : stride rows m m = 1 :=
  if_neg (lt_irrefl m)

theorem dvd_outerGcd {g : Nat} :
    g ∣ outerGcd rows d ↔ ∀ row ∈ rows, ∀ s ∈ row.take d, ∀ v ∈ constants s, (g : Int) ∣ v := by
  simp only [outerGcd, dvd_gcdAll, List.mem_flatMap]
  constructor
  · exact fun all row hrow s hs v hv => all v ⟨row, hrow, s, hs, hv⟩
  · rintro all v ⟨row, hrow, s, hs, hv⟩
    exact all row hrow s hs v hv

theorem stride_dvd (rows : List (List Expr)) (m d : Nat) : stride rows m (d + 1) ∣ stride rows m d := by
  unfold stride
  split
  · next outside =>
    rw [if_pos (by omega)]
    refine dvd_outerGcd.mpr fun row hrow s hs => dvd_outerGcd.mp dvd_rfl row hrow s ?_
    exact List.take_subset_take_left row (Nat.le_succ d) hs
  · exact one_dvd _

/-- A stride divides the constants of all subscripts outside of it. -/
theorem stride_dvd_constants {row : List Expr} (mem : row ∈ rows) {k : Nat} {s : Expr}
    (here : row[k]? = some s) : ∀ v ∈ constants s, (stride rows m (k + 1) : Int) ∣ v := by
  intro v hv
  unfold stride
  split
  · refine dvd_outerGcd.mp dvd_rfl row mem s ?_ v hv
    refine List.mem_of_getElem? (i := k) ?_
    rwa [List.getElem?_take_of_lt (Nat.lt_succ_self k)]
  · simp

theorem ConstantRows.stride_small (wide : 2 ≤ w) (constant : ConstantRows w n rows) (outer : 1 ≤ d)
    (inside : m ≤ n) : Expr.Small w (stride rows m d) := by
  unfold stride
  split
  · next outside =>
    obtain ⟨row, hrow⟩ := List.exists_mem_of_ne_nil rows constant.some
    have length := constant.length row hrow
    have first : row[0] ∈ row.take d := by
      refine List.mem_of_getElem? (i := 0) ?_
      rw [List.getElem?_take_of_lt outer, List.getElem?_eq_getElem (by omega)]
    obtain ⟨v, hv⟩ := List.exists_mem_of_ne_nil _
      (constant.nests row hrow row[0] (List.mem_of_mem_take first)).constants_ne_nil
    have bound : outerGcd rows d < nestBound w := by
      refine gcdAll_lt (List.ne_nil_of_mem (a := v) ?_) ?_
      · exact List.mem_flatMap.mpr ⟨row, hrow, List.mem_flatMap.mpr ⟨_, first, hv⟩⟩
      · intro u hu
        obtain ⟨row', hrow', hu⟩ := List.mem_flatMap.mp hu
        obtain ⟨s, hs, hu⟩ := List.mem_flatMap.mp hu
        exact (constant.nests row' hrow' s (List.mem_of_mem_take hs)).bounded u hu
    exact (searchable_of_bounded (by simpa using bound)).1
  · exact small_one wide

theorem ConstantRows.size_small (wide : 2 ≤ w) (constant : ConstantRows w n rows) (outer : 1 ≤ d)
    (inside : m ≤ n) : Expr.Small w (stride rows m d / stride rows m (d + 1) : Nat) :=
  (constant.stride_small wide outer inside).of_le (Nat.div_le_self _ _)

/-- A stride is the product of the next one and of the size between them. -/
theorem ConstantRows.productOf_stride (iw : Int) (wide : 2 ≤ w) (constant : ConstantRows w n rows)
    (outer : 1 ≤ d) (inside : m ≤ n) :
    productOf iw [const (stride rows m (d + 1)) w,
      const (stride rows m d / stride rows m (d + 1) : Nat) w] = .ok (const (stride rows m d) w) :=
  productOf_quotient iw wide (constant.stride_small wide outer inside)
    (constant.stride_small wide (Nat.le_add_left 1 d) inside) (stride_dvd rows m d)

end ShapeRecovery
