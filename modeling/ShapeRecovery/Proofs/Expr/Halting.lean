import ShapeRecovery.Proofs.Ending
import ShapeRecovery.Proofs.Expr.Algebra

namespace ShapeRecovery

variable {α β : Type}

/-- `x` does not stop at a bound, and its results satisfy `P`. -/
abbrev Halts (x : Except Fault α) (P : α → Prop) : Prop := Ends (· ≠ .outOfFuel) x P

theorem Halts.ne_outOfFuel {x : Except Fault α} {P : α → Prop} (halts : Halts x P) :
    x ≠ .error .outOfFuel := by
  rintro rfl
  rcases halts with ⟨e, run, other⟩ | ⟨a, run, -⟩
  · cases run
    exact other rfl
  · cases run

/-- More is known of the results of a run. -/
theorem Halts.and_of_run {x : Except Fault α} {P Q : α → Prop} (halts : Halts x P)
    (results : ∀ a, x = .ok a → Q a) : Halts x fun a => P a ∧ Q a := by
  rcases halts with refused | ⟨a, run, h⟩
  · exact .inl refused
  · exact .inr ⟨a, run, h, results a run⟩

/-- Two bounds on a run do not tell it apart, as neither is reached; its results satisfy `P`. -/
structure Agree (x y : Except Fault α) (P : α → Prop) : Prop where
  same : x = y
  halts : Halts x P

namespace Agree

variable {x y : Except Fault α} {f g : α → Except Fault β} {P Q : α → Prop} {R : β → Prop}

theorem of_halts (halts : Halts x P) : Agree x x P := ⟨rfl, halts⟩

theorem ok {a : α} (h : P a) : Agree (.ok a) (.ok a) P := .of_halts (.ok h)

theorem mono (agree : Agree x y P) (weaker : ∀ a, P a → Q a) : Agree x y Q :=
  ⟨agree.same, agree.halts.mono weaker⟩

theorem bind (first : Agree x y P) (next : ∀ a, P a → Agree (f a) (g a) R) :
    Agree (x >>= f) (y >>= g) R := by
  obtain ⟨rfl, halts⟩ := first
  refine ⟨?_, halts.bind fun a h => (next a h).halts⟩
  rcases halts with ⟨e, run, -⟩ | ⟨a, run, h⟩
  · rw [run]
    rfl
  · rw [run]
    exact (next a h).same

/-- What comes before a step has no bound. -/
theorem after (first : Halts x P) (next : ∀ a, P a → Agree (f a) (g a) R) :
    Agree (x >>= f) (x >>= g) R :=
  (of_halts first).bind next

end Agree

namespace Expr

variable {w : Int} {es : List Expr}

theorem ofInt_halts (v w : Int) : Halts (ofInt v w) fun r => weight r = 1 := by
  refine Ends.bind (P := fun _ => True) ?_ fun v _ => .ok rfl
  unfold Word.signed
  split
  · exact .error (by simp)
  · exact .ok trivial

theorem signed_halts (v w : Int) : Halts (Word.signed v w) fun _ => True := by
  unfold Word.signed
  split
  · exact .error (by simp)
  · exact .ok trivial

theorem width_halts : ∀ e : Expr, Halts e.width fun _ => True
  | const .. | unknown .. | cast .. | uncomputable => .ok trivial
  | nary _ [] => .error (by simp)
  | nary _ (e :: _) => by
    rw [width]
    exact width_halts e
  | quotient lhs _ => by
    rw [width]
    exact width_halts lhs
  | recurrence start _ _ => by
    rw [width]
    exact width_halts start

theorem commonWidth_halts (iw : Int) (es : List Expr) : Halts (commonWidth iw es) fun _ => True := by
  induction es with
  | nil => exact .ok trivial
  | cons e es ih =>
    refine (width_halts e).bind fun v _ => ?_
    cases v with
    | none => exact ih
    | some w => exact .ok trivial

mutual

theorem text_halts : ∀ e : Expr, Halts e.text fun _ => True
  | const .. | unknown .. | uncomputable => .ok trivial
  | nary _ ops => (textList_halts ops).bind fun _ _ => .ok trivial
  | quotient lhs rhs => (text_halts lhs).bind fun _ _ => (text_halts rhs).bind fun _ _ => .ok trivial
  | cast _ arg _ => (width_halts arg).bind fun _ _ => (text_halts arg).bind fun _ _ => .ok trivial
  | recurrence start step _ =>
    (text_halts start).bind fun _ _ => (text_halts step).bind fun _ _ => .ok trivial

theorem textList_halts : ∀ es : List Expr, Halts (textList es) fun _ => True
  | [] => .ok trivial
  | e :: es => (text_halts e).bind fun _ _ => (textList_halts es).bind fun _ _ => .ok trivial

end

private theorem sorted_halts (es : List Expr) : Halts (sorted es) fun fs => fs.Perm es := by
  have keyed (e : Expr) : Halts (do let k ← orderKey e; return (k, e)) fun _ => True := by
    have key : Halts (orderKey e) fun _ => True := (text_halts e).bind fun _ _ => .ok trivial
    exact key.bind fun _ _ => .ok trivial
  have ends : Halts (sorted es) fun _ => True :=
    (Ends.mapM (R := fun _ _ => True) fun e _ => keyed e).bind fun _ _ => .ok trivial
  exact (ends.and_of_run fun fs run => perm_of_sorted run).mono fun fs h => h.2

theorem ordered_halts (op : Nary) (es : List Expr) : Halts (ordered op es) (Arranged op es) := by
  have ends : Halts (ordered op es) fun _ => True := by
    refine (sorted_halts es).bind fun fs _ => ?_
    split <;> exact .ok trivial
  exact (ends.and_of_run fun r run => arranged_of_ordered run).mono fun r h => h.2

theorem Arranged.weight_sum {r : Expr} (h : Arranged .sum es r) (some : es ≠ []) :
    weight r = weightSum es := by
  rcases h with rfl | ⟨many, fs, perm, rfl⟩
  · simp [weightSum]
  · have length := List.length_pos_of_ne_nil some
    rw [Expr.weight_sum (by have := perm.length_eq; omega), weightSum_perm perm]

theorem Arranged.weight_product {r : Expr} (h : Arranged .product es r) (some : es ≠ []) :
    weight r = weightProduct es := by
  rcases h with rfl | ⟨many, fs, perm, rfl⟩
  · simp [weightProduct]
  · have length := List.length_pos_of_ne_nil some
    rw [Expr.weight_product (by have := perm.length_eq; omega), weightProduct_perm perm]

/-- Opening a sum makes its terms no heavier. -/
theorem weightSum_flatten_le (es : List Expr) : weightSum (flatten .sum es) ≤ weightSum es := by
  induction es using flatten_induction .sum with
  | nil => exact le_rfl
  | node fs es ih =>
    simp only [flatten_nary, weightSum_append, weightSum, weight]
    omega
  | other e es apart ih =>
    rw [flatten_other apart]
    exact Nat.add_le_add_left ih _

theorem weightProduct_flatten_le (es : List Expr) :
    weightProduct (flatten .product es) ≤ weightProduct es := by
  induction es using flatten_induction .product with
  | nil => exact le_rfl
  | node fs es ih =>
    simp only [flatten_nary, weightProduct_append, weightProduct, weight]
    exact Nat.mul_le_mul (Nat.le_add_left _ _) ih
  | other e es apart ih =>
    rw [flatten_other apart]
    exact Nat.mul_le_mul_left _ ih

/-- Beside a term of a sum that was opened, every other operand counts. -/
theorem weight_add_length_le_of_flatten {e : Expr} (mem : e ∈ flatten .sum es) :
    weight e + es.length ≤ weightSum es + 1 := by
  rcases mem_flatten mem with ⟨mem, -⟩ | ⟨fs, mem, part⟩
  · exact weight_add_length_le mem
  · have inside := weight_add_length_le part
    have filled := List.length_pos_of_mem part
    have node := weight_add_length_le mem
    simp only [weight] at node
    omega

end Expr

end ShapeRecovery
