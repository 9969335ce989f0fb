import ShapeRecovery.Proofs.Expr.Graded

namespace ShapeRecovery.Expr

mutual

/-- The degree of an expression in an unknown value: the greatest one among the operands, and in a product
their total. In a quotient, a cast or a maximum it counts twice, so that only what is linear in the unknown
value has degree one. -/
def degree (s : Symbol) (b : Int) : Expr → Nat
  | const .. | uncomputable => 0
  | unknown t c => if t = s ∧ c = b then 1 else 0
  | nary .sum es => (degrees s b es).foldr max 0
  | nary .product es => (degrees s b es).sum
  | nary .signedMax es | nary .unsignedMax es => 2 * (degrees s b es).foldr max 0
  | quotient e f => 2 * max (degree s b e) (degree s b f)
  | cast _ e _ => 2 * degree s b e
  | recurrence e f _ => max (degree s b e) (degree s b f)

def degrees (s : Symbol) (b : Int) : List Expr → List Nat
  | [] => []
  | e :: es => degree s b e :: degrees s b es

end

/-- The degree of a factor, which the unknown value itself does not count for. -/
def factorDegree (s : Symbol) (b : Int) (e : Expr) : Nat :=
  if e = unknown s b then 0 else degree s b e

mutual

/-- The degree of an expression in an unknown value, apart from the factors that are this value: what is
left of it after divisions by them. -/
def residualDegree (s : Symbol) (b : Int) : Expr → Nat
  | unknown .. => 0
  | nary .sum es => (residualDegrees s b es).foldr max 0
  | nary .product es => (es.map (factorDegree s b)).sum
  | recurrence e f _ => max (residualDegree s b e) (residualDegree s b f)
  | e => degree s b e

def residualDegrees (s : Symbol) (b : Int) : List Expr → List Nat
  | [] => []
  | e :: es => residualDegree s b e :: residualDegrees s b es

end

variable {s : Symbol} {b : Int} {e f r : Expr} {es fs : List Expr} {l : Loop} {n : Nat} {iw w v : Int}

section lists

theorem foldr_max_le {ns : List Nat} : ns.foldr max 0 ≤ n ↔ ∀ m ∈ ns, m ≤ n := by
  induction ns with
  | nil => simp
  | cons m ns ih => simp [ih]

theorem degrees_eq_map (es : List Expr) : degrees s b es = es.map (degree s b) := by
  induction es with
  | nil => rfl
  | cons e es ih => rw [degrees, ih, List.map_cons]

private theorem residualDegrees_eq_map (es : List Expr) :
    residualDegrees s b es = es.map (residualDegree s b) := by
  induction es with
  | nil => rfl
  | cons e es ih => rw [residualDegrees, ih, List.map_cons]

end lists

section degree

@[simp] theorem degree_const : degree s b (const v w) = 0 := rfl

theorem degree_sum_le : degree s b (sum es) ≤ n ↔ ∀ e ∈ es, degree s b e ≤ n := by
  simp [degree, foldr_max_le, degrees_eq_map]

theorem degree_le_of_term (mem : e ∈ es) : degree s b e ≤ degree s b (sum es) :=
  degree_sum_le.mp le_rfl e mem

theorem degree_product : degree s b (product es) = (es.map (degree s b)).sum := by
  rw [degree, degrees_eq_map]

theorem degree_recurrence_le :
    degree s b (recurrence e f l) ≤ n ↔ degree s b e ≤ n ∧ degree s b f ≤ n := by
  rw [degree, max_le_iff]

end degree

section measures

variable {μ : Expr → Nat} (constants : ∀ v w, μ (const v w) = 0)
include constants

theorem sum_map_others (es : List Expr) :
    ((es.filter fun e => !e.isConst).map μ).sum = (es.map μ).sum := by
  induction es with
  | nil => rfl
  | cons e es ih =>
    cases e with
    | const v w => simpa [isConst, constants] using ih
    | _ => simpa [isConst] using ih

theorem sum_map_leading {head : List Expr} (leading : LeadingFactor head) : (head.map μ).sum = 0 := by
  rcases leading with rfl | ⟨c, w, -, -, rfl⟩
  · rfl
  · simp [constants]

/-- What counts as much as its factors counts no more when products are opened. -/
theorem sum_map_opened (opened : ∀ fs, (fs.map μ).sum ≤ μ (product fs)) {head : List Expr}
    (leading : LeadingFactor head) (es : List Expr) :
    ((head ++ plainFactors es).map μ).sum ≤ (es.map μ).sum := by
  rw [List.map_append, List.sum_append, sum_map_leading constants leading, Nat.zero_add, plainFactors,
    sum_map_others constants]
  induction es using flatten_induction .product with
  | nil => exact le_rfl
  | node fs es ih =>
    have inside : (fs.map μ).sum ≤ μ (nary .product fs) := opened fs
    rw [flatten_nary, List.map_append, List.sum_append, List.map_cons, List.sum_cons]
    omega
  | other e es other ih =>
    rw [flatten_other other, List.map_cons, List.sum_cons, List.map_cons, List.sum_cons]
    omega

end measures

/-- A recurrence among the factors may be replaced by what counts no more. -/
theorem sum_map_scaled {μ : Expr → Nat} {a b c : Expr} (scaled : scalable? es = some (a, b, l))
    (less : μ c ≤ μ (recurrence a b l)) :
    (((es.filter fun f => !f.isRecurrence) ++ [c]).map μ).sum ≤ (es.map μ).sum := by
  have perm := ((scalable_spec scaled).map μ).sum_eq
  simp only [List.map_append, List.sum_append, List.map_cons, List.map_nil, List.sum_cons,
    List.sum_nil] at perm ⊢
  omega

/-- What counts as much as its factors counts no more when they are sorted. -/
private theorem sum_map_ordered {μ : Expr → Nat} (node : ∀ fs, μ (product fs) ≤ (fs.map μ).sum)
    (run : ordered .product es = .ok r) : μ r ≤ (es.map μ).sum := by
  rcases arranged_of_ordered run with rfl | ⟨-, fs, perm, rfl⟩
  · simp
  · rw [← (perm.map μ).sum_eq]
    exact node fs

/-- Sums keep the degree, and products add it up. -/
theorem graded_degree (s : Symbol) (b : Int) (n : Nat) :
    Graded (fun e => degree s b e ≤ n) fun es => (es.map (degree s b)).sum ≤ n where
  const _ _ := Nat.zero_le n
  uncomputable := Nat.zero_le n
  sum := degree_sum_le
  parts := degree_recurrence_le.mp
  recur l first second :=
    recur_induction (P := fun e => degree s b e ≤ n) l (Nat.zero_le n) (fun _ => first) fun _ =>
      degree_recurrence_le.mpr ⟨first, second⟩
  multiple here run := by
    rcases asMultiple_cases run with ⟨w, rfl⟩ | ⟨w, fs, -, rfl, rfl⟩ | ⟨-, -, rfl⟩
    all_goals simpa [degree_product] using here
  opened factors leading :=
    (sum_map_opened (fun _ _ => rfl) (fun _ => degree_product.ge) leading _).trans factors
  scaled factors scaled :=
    ⟨(sum_map_scaled scaled (le_max_left ..)).trans factors,
      (sum_map_scaled scaled (le_max_right ..)).trans factors⟩
  spread _ factors e he := by
    simp only [List.map_cons, List.map_nil, List.sum_cons, List.sum_nil] at factors ⊢
    have inside : degree s b e ≤ degree s b (sum _) := degree_le_of_term he
    omega
  product factors leading _ _ _ run :=
    ((sum_map_ordered (fun _ => degree_product.le) run).trans
      (sum_map_opened (fun _ _ => rfl) (fun _ => degree_product.ge) leading _)).trans factors

section residual

theorem factorDegree_unknown (t : Symbol) (c : Int) : factorDegree s b (unknown t c) = 0 := by
  by_cases same : t = s ∧ c = b
  · rw [same.1, same.2]
    exact if_pos rfl
  · simp [factorDegree, degree, same]

@[simp] theorem factorDegree_const : factorDegree s b (const v w) = 0 := rfl

theorem factorDegree_of_ne (other : e ≠ unknown s b) : factorDegree s b e = degree s b e := if_neg other

theorem factorDegree_le (e : Expr) : factorDegree s b e ≤ degree s b e := by
  unfold factorDegree
  split <;> simp

theorem residualDegree_sum_le :
    residualDegree s b (sum es) ≤ n ↔ ∀ e ∈ es, residualDegree s b e ≤ n := by
  simp [residualDegree, foldr_max_le, residualDegrees_eq_map]

theorem residualDegree_product :
    residualDegree s b (product es) = (es.map (factorDegree s b)).sum := by
  rw [residualDegree]

theorem residualDegree_recurrence_le : residualDegree s b (recurrence e f l) ≤ n ↔
    residualDegree s b e ≤ n ∧ residualDegree s b f ≤ n := by
  rw [residualDegree, max_le_iff]

theorem residualDegree_le : ∀ e, residualDegree s b e ≤ degree s b e
  | nary .sum es => by
    rw [residualDegree_sum_le]
    intro e he
    exact (residualDegree_le e).trans (degree_le_of_term he)
  | nary .product es => by
    rw [residualDegree_product, degree_product]
    exact List.sum_le_sum fun e _ => factorDegree_le e
  | recurrence e f l => by
    rw [residualDegree_recurrence_le]
    exact ⟨(residualDegree_le e).trans (le_max_left ..), (residualDegree_le f).trans (le_max_right ..)⟩
  | unknown .. => Nat.zero_le _
  | const .. | uncomputable | quotient .. | cast .. | nary .signedMax _ | nary .unsignedMax _ => le_rfl

theorem residualDegree_le_factorDegree (e : Expr) : residualDegree s b e ≤ factorDegree s b e := by
  by_cases same : e = unknown s b
  · simp [same, residualDegree]
  · rw [factorDegree_of_ne same]
    exact residualDegree_le e

private theorem factorDegree_product_ge (es : List Expr) :
    (es.map (factorDegree s b)).sum ≤ factorDegree s b (product es) := by
  rw [factorDegree_of_ne (by simp), degree_product]
  exact List.sum_le_sum fun e _ => factorDegree_le e

/-- Factors of which the product has at most the residual degree `n`: they have at most this degree
together, or there are only constants beside one of them. -/
def ResidualWithin (s : Symbol) (b : Int) (n : Nat) (es : List Expr) : Prop :=
  (es.map (factorDegree s b)).sum ≤ n ∨
    (es.filter fun e => !e.isConst).length ≤ 1 ∧ ∀ e ∈ es, residualDegree s b e ≤ n

private theorem plainFactors_others (es : List Expr) :
    plainFactors (es.filter fun e => !e.isConst) = plainFactors es := by
  induction es using flatten_induction .product with
  | nil => rfl
  | node fs es ih =>
    rw [List.filter_cons_of_pos rfl]
    simpa [plainFactors] using ih
  | other e es other ih =>
    cases constant : e.isConst with
    | true => simpa [plainFactors, constant, flatten_other other] using ih
    | false => simpa [plainFactors, constant, flatten_other other] using ih

/-- Once the factors are opened, one of them that is alone is no product. -/
theorem ResidualWithin.plain (within : ResidualWithin s b n es) :
    ((plainFactors es).map (factorDegree s b)).sum ≤ n ∨
      ∃ e, plainFactors es = [e] ∧ e.naryOp? ≠ some .product ∧ residualDegree s b e ≤ n := by
  have opened := sum_map_opened (μ := factorDegree s b) (fun _ _ => rfl) factorDegree_product_ge (.inl rfl)
  rcases within with low | ⟨alone, each⟩
  · exact .inl ((opened es).trans low)
  have others := plainFactors_others es
  cases left : es.filter fun e => !e.isConst with
  | nil =>
    rw [left] at others
    have none : plainFactors es = [] := others.symm.trans rfl
    exact .inl (by simp [none])
  | cons e rest =>
    obtain rfl : rest = [] := by simpa [left] using alone
    have mem : e ∈ es.filter fun e => !e.isConst := by simp [left]
    have here := each e (List.mem_of_mem_filter mem)
    have other : e.isConst = false := by simpa using (List.mem_filter.mp mem).2
    rw [left] at others
    by_cases whole : e.naryOp? = some .product
    · obtain ⟨fs, rfl⟩ := naryOp_eq.mp whole
      refine .inl ?_
      rw [← others, plainFactors, flatten_nary, sum_map_others fun _ _ => rfl]
      simpa [flatten] using residualDegree_product.ge.trans here
    · refine .inr ⟨e, ?_, whole, here⟩
      rw [← others, plainFactors, flatten_other whole]
      simp [flatten, other]

/-- An expression that is built of no smaller ones by sums, products or recurrences counts as a factor for
all of its degree, or it is the unknown value. -/
private theorem factorDegree_le_of_whole (noProduct : e.naryOp? ≠ some .product) (noSum : ∀ ts, e ≠ sum ts)
    (still : e.isRecurrence = false) : factorDegree s b e ≤ residualDegree s b e := by
  cases e with
  | nary op es =>
    cases op with
    | sum => exact absurd rfl (noSum es)
    | product => exact absurd rfl noProduct
    | _ => exact factorDegree_le _
  | recurrence => cases still
  | unknown t c => exact (factorDegree_unknown t c).le
  | _ => exact factorDegree_le _

theorem ResidualWithin.product {head : List Expr} (within : ResidualWithin s b n es)
    (leading : LeadingFactor head) (unscaled : scalable? (head ++ plainFactors es) = none)
    (alone : ∀ k ts, head = [k] → plainFactors es = [Expr.sum ts] → False)
    (run : ordered .product (head ++ plainFactors es) = .ok r) : residualDegree s b r ≤ n := by
  have low (few : ((plainFactors es).map (factorDegree s b)).sum ≤ n) : residualDegree s b r ≤ n := by
    refine le_trans ?_ few
    have front := sum_map_leading (μ := factorDegree s b) (fun _ _ => rfl) leading
    have all : ((head ++ plainFactors es).map (factorDegree s b)).sum =
        ((plainFactors es).map (factorDegree s b)).sum := by
      rw [List.map_append, List.sum_append, front, Nat.zero_add]
    rw [← all]
    rcases arranged_of_ordered run with single | ⟨-, fs, perm, rfl⟩
    · simpa [single] using residualDegree_le_factorDegree r
    · rw [residualDegree_product, (perm.map (factorDegree s b)).sum_eq]
  rcases within.plain with few | ⟨e, only, noProduct, here⟩
  · exact low few
  rw [only] at run unscaled alone
  rcases leading with rfl | ⟨c, w, -, -, rfl⟩
  · rcases arranged_of_ordered run with single | ⟨several, -⟩
    · cases single
      exact here
    · exact absurd rfl several
  -- A constant beside a sum or a recurrence would have been multiplied into it.
  have still : e.isRecurrence = false := by
    cases e with
    | recurrence a c l => simp [scalable?, isRecurrence, dependsOn, loops] at unscaled
    | _ => rfl
  have noSum : ∀ ts, e ≠ sum ts := fun ts same => alone _ ts rfl (by rw [same])
  have whole := factorDegree_le_of_whole (s := s) (b := b) noProduct noSum still
  exact low (by simpa [only] using whole.trans here)

/-- Sums keep the residual degree, and products as far as that of all but one factor is counted in full. -/
theorem graded_residualDegree (s : Symbol) (b : Int) (n : Nat) :
    Graded (fun e => residualDegree s b e ≤ n) (ResidualWithin s b n) where
  const _ _ := Nat.zero_le n
  uncomputable := Nat.zero_le n
  sum := residualDegree_sum_le
  parts := residualDegree_recurrence_le.mp
  recur l first second :=
    recur_induction (P := fun e => residualDegree s b e ≤ n) l (Nat.zero_le n) (fun _ => first) fun _ =>
      residualDegree_recurrence_le.mpr ⟨first, second⟩
  multiple {e c f} here run := by
    have alone (here : residualDegree s b f ≤ n) (u w : Int) : ResidualWithin s b n [.const u w, f] := by
      refine .inr ⟨?_, by simpa [residualDegree] using here⟩
      rw [List.filter_cons_of_neg (by simp [isConst])]
      exact List.length_filter_le _ [f]
    have base : residualDegree s b f ≤ n := by
      rcases asMultiple_cases run with ⟨w, rfl⟩ | ⟨w, fs, -, rfl, rfl⟩ | ⟨-, -, rfl⟩
      · exact (residualDegree_le_factorDegree f).trans (by simpa [residualDegree_product] using here)
      · simpa [residualDegree_product] using here
      · exact here
    exact ⟨base, alone base⟩
  opened {es head} factors leading := by
    have front := sum_map_leading (μ := factorDegree s b) (fun _ _ => rfl) leading
    rcases factors.plain with few | ⟨e, only, -, here⟩
    · exact .inl (by rwa [List.map_append, List.sum_append, front, Nat.zero_add])
    · rw [only]
      rcases leading with rfl | ⟨c, w, -, -, rfl⟩
      · exact .inr ⟨List.length_filter_le _ [e], by simpa using here⟩
      · refine .inr ⟨?_, by simpa [residualDegree] using here⟩
        rw [List.singleton_append, List.filter_cons_of_neg (by simp [isConst])]
        exact List.length_filter_le _ [e]
  scaled {es a c l} factors scaled := by
    have part (f : Expr) (low : degree s b f ≤ degree s b (.recurrence a c l))
        (here : residualDegree s b f ≤ residualDegree s b (.recurrence a c l)) :
        ResidualWithin s b n ((es.filter fun f => !f.isRecurrence) ++ [f]) := by
      have perm := scalable_spec scaled
      rcases factors with few | ⟨alone, each⟩
      · refine .inl ((sum_map_scaled scaled ?_).trans few)
        rw [factorDegree_of_ne (e := .recurrence a c l) (by simp)]
        exact (factorDegree_le f).trans low
      · have moving := (perm.filter fun e => !e.isConst).length_eq
        refine .inr ⟨?_, List.forall_mem_append.mpr ⟨fun e he => ?_, ?_⟩⟩
        · have last := List.length_filter_le (fun e : Expr => !e.isConst) [f]
          rw [List.filter_append, List.length_append] at moving ⊢
          rw [List.filter_cons_of_pos rfl, List.length_cons] at moving
          rw [List.length_singleton] at last
          omega
        · exact each e (List.mem_of_mem_filter he)
        · simpa using here.trans (each _ (perm.subset (by simp)))
    exact ⟨part a (le_max_left ..) (le_max_left ..), part c (le_max_right ..) (le_max_right ..)⟩
  spread {k ts} constant factors e he := by
    rcases factors with few | ⟨-, each⟩
    · refine .inl (le_trans ?_ few)
      have inside : degree s b e ≤ degree s b (Expr.sum ts) := degree_le_of_term he
      have low := factorDegree_le (s := s) (b := b) e
      simp only [List.map_cons, List.map_nil, List.sum_cons, List.sum_nil]
      rw [factorDegree_of_ne (e := Expr.sum ts) (by simp)]
      omega
    · refine .inr ⟨?_, fun f hf => ?_⟩
      · rw [List.filter_cons_of_neg (by simp [constant])]
        exact List.length_filter_le _ [e]
      · rcases List.mem_pair.mp hf with rfl | rfl
        · exact each f (by simp)
        · exact residualDegree_sum_le.mp (each (Expr.sum ts) (by simp)) f he
  product factors leading _ unscaled alone run := factors.product leading unscaled alone run

end residual

end ShapeRecovery.Expr
