import ShapeRecovery.Proofs.Expr.LinearForm
import ShapeRecovery.Proofs.Expr.Soundness

namespace ShapeRecovery.Expr

variable {iw w : Int} {l m : Loop} {e a b : Expr} {es : List Expr} {ρ : Valuation}

/-- `e` is `a` times the iterations of `l`, plus `b`; both parts are values of `w` bits over `l`. -/
structure SplitsInto (l : Loop) (w : Int) (e a b : Expr) : Prop where
  coefficient : HasBits a w ∧ OverLoop l a
  free : HasBits b w ∧ OverLoop l b
  value_eq : ∀ ρ, value w ρ e = value w ρ a * (ρ.count l : ZMod (Word.modulus w)) + value w ρ b

/-- A form that is safe, and in which a loop was found, splits the expression over that loop. -/
def LinearForm.Exact (l : Loop) (w : Int) (e : Expr) (form : LinearForm) : Prop :=
  form.safe = true → ∀ a m, form.linear = some (a, m) → m = l ∧ SplitsInto l w e a form.free

/-- What was found among the operands is one of them split in two, and the others are all the rest. -/
def Occurrence.Exact (l : Loop) (w : Int) (es : List Expr) (found : Occurrence) : Prop :=
  ∃ e, es.Perm (e :: found.others) ∧ found.loop = l ∧
    SplitsInto l w e found.coefficient found.free

theorem findAmong_exact {found : Option Occurrence} {safe : Bool}
    (each : ∀ e ∈ es, ∀ form, findLinear iw e = .ok form → form.Exact l w e)
    (run : findAmong iw es = .ok (found, safe)) (trusted : safe = true) :
    ∀ o ∈ found, o.Exact l w es := by
  induction es generalizing found safe with
  | nil =>
    cases run
    simp
  | cons e es ih =>
    obtain ⟨form, hform, run⟩ := bind_eq_ok.mp run
    have here := each e (by simp) form hform
    cases linear : form.linear with
    | some part =>
      simp only [linear] at run
      cases run
      intro o ho
      cases ho
      have split := here trusted part.1 part.2 linear
      exact ⟨e, List.Perm.refl _, split.1, split.2⟩
    | none =>
      simp only [linear] at run
      obtain ⟨⟨found', safe'⟩, rest, made⟩ := bind_eq_ok.mp run
      cases made
      have trusted' : safe' = true := (Bool.and_eq_true_iff.mp trusted).2
      intro o ho
      obtain ⟨o', ho', rfl⟩ := Option.map_eq_some_iff.mp ho
      obtain ⟨f, perm, same, split⟩ := ih (fun f hf => each f (by simp [hf])) rest trusted' o' ho'
      exact ⟨f, (perm.cons e).trans (List.Perm.swap f e o'.others), same, split⟩

section operators

variable {found : Occurrence}

/-- The operands beside the one that was split, with one of its parts in its place. -/
theorem Occurrence.Exact.beside (exact : found.Exact l w es) (ops : Operands (· = l) w es)
    (part : Expr.HasBits b w ∧ OverLoop l b) : Operands (· = l) w (found.others ++ [b]) := by
  obtain ⟨e, perm, -, -⟩ := exact
  intro f hf
  rcases List.mem_append.mp hf with hf | hf
  · exact ops f (perm.mem_iff.mpr (by simp [hf]))
  · rw [List.mem_singleton.mp hf]
    exact part

theorem inStep_single (l : Loop) (ρ : Valuation) : InStep (· = l) ρ := by
  intro m n hm hn
  rw [hm, hn]

/-- In a sum the other terms join the free part. -/
private theorem splits_sum (exact : found.Exact l w es) (ops : Operands (· = l) w es)
    (run : sumOf iw (found.others ++ [found.free]) = .ok b) :
    SplitsInto l w (nary .sum es) found.coefficient b := by
  obtain ⟨e, perm, -, split⟩ := id exact
  have beside := exact.beside ops split.free
  have stands (ρ : Valuation) :
      Stands (· = l) ρ w ((found.others ++ [found.free]).map (value w ρ)).sum b := by
    obtain ⟨b', hb', stands⟩ := sumOf_yields iw (inStep_single l ρ) beside (by simp)
    cases run.symm.trans hb'
    exact stands
  refine ⟨split.coefficient, ⟨(stands default).typed, (stands default).within⟩, fun ρ => ?_⟩
  have total := (perm.map (value w ρ)).sum_eq
  have others := (stands ρ).value_eq
  simp only [List.map_cons, List.sum_cons, List.map_append, List.sum_append, List.map_nil,
    List.sum_nil, add_zero] at total others
  rw [value_sum, total, others, split.value_eq ρ]
  ring

/-- In a product the other factors are multiplied with both parts. -/
private theorem splits_product (exact : found.Exact l w es) (ops : Operands (· = l) w es)
    (run : productOf iw (found.others ++ [found.free]) = .ok b)
    (run' : productOf iw (found.others ++ [found.coefficient]) = .ok a) :
    SplitsInto l w (nary .product es) a b := by
  obtain ⟨e, perm, -, split⟩ := id exact
  have stands {p r : Expr} (part : HasBits p w ∧ OverLoop l p)
      (run : productOf iw (found.others ++ [p]) = .ok r) (ρ : Valuation) :
      Stands (· = l) ρ w ((found.others ++ [p]).map (value w ρ)).prod r := by
    obtain ⟨r', hr', stands⟩ := productOf_yields iw (inStep_single l ρ) (exact.beside ops part) (by simp)
    cases run.symm.trans hr'
    exact stands
  have free := stands split.free run
  have coefficient := stands split.coefficient run'
  refine ⟨⟨(coefficient default).typed, (coefficient default).within⟩,
    ⟨(free default).typed, (free default).within⟩, fun ρ => ?_⟩
  have total := (perm.map (value w ρ)).prod_eq
  have first := (free ρ).value_eq
  have second := (coefficient ρ).value_eq
  simp only [List.map_cons, List.prod_cons, List.map_append, List.prod_append, List.map_nil,
    List.prod_nil, mul_one] at total first second
  rw [value_product, total, first, second, split.value_eq ρ]
  ring

end operators

section search

variable {form : LinearForm}

/-- Where no loop is found there is nothing to split. -/
theorem LinearForm.exact_none {safe : Bool} : (⟨none, b, safe⟩ : LinearForm).Exact l w e :=
  fun _ _ _ found => nomatch found

/-- A cast on the way makes the form unsafe. -/
private theorem findLinear_cast_exact {kind : CastKind} (run : findLinear iw (.cast kind e w) = .ok form) :
    form.Exact l w (.cast kind e w) := by
  simp only [findLinear, pure_eq_ok, ok_bind] at run
  obtain ⟨inner, -, run⟩ := bind_eq_ok.mp run
  have doubtful : form.safe = false := by
    split at run
    · obtain ⟨free, -, made⟩ := bind_eq_ok.mp run
      cases made
      rfl
    · obtain ⟨a, -, run⟩ := bind_eq_ok.mp run
      obtain ⟨free, -, made⟩ := bind_eq_ok.mp run
      cases made
      rfl
  intro trusted
  simp [doubtful] at trusted

section operands

variable (ops : Operands (· = l) w es)
  (each : ∀ e ∈ es, ∀ form, findLinear iw e = .ok form → form.Exact l w e)
include ops each

private theorem findLinear_sum_exact (run : findLinear iw (.sum es) = .ok form) : form.Exact l w (.sum es) := by
  simp only [findLinear] at run
  obtain ⟨⟨found, safe⟩, hfound, run⟩ := bind_eq_ok.mp run
  cases found with
  | none =>
    cases run
    exact LinearForm.exact_none
  | some o =>
    obtain ⟨b, hb, made⟩ := bind_eq_ok.mp run
    cases made
    intro trusted a m found
    cases found
    have exact := findAmong_exact each hfound trusted o rfl
    obtain ⟨-, -, same, -⟩ := id exact
    exact ⟨same, splits_sum exact ops hb⟩

private theorem findLinear_product_exact (run : findLinear iw (.product es) = .ok form) :
    form.Exact l w (.product es) := by
  simp only [findLinear] at run
  obtain ⟨⟨found, safe⟩, hfound, run⟩ := bind_eq_ok.mp run
  cases found with
  | none =>
    cases run
    exact LinearForm.exact_none
  | some o =>
    obtain ⟨b, hb, run⟩ := bind_eq_ok.mp run
    obtain ⟨a, ha, made⟩ := bind_eq_ok.mp run
    cases made
    intro trusted a' m found
    cases found
    have exact := findAmong_exact each hfound trusted o rfl
    obtain ⟨-, -, same, -⟩ := id exact
    exact ⟨same, splits_product exact ops hb ha⟩

end operands

/-- The search keeps the value wherever it meets no cast. -/
theorem findLinear_exact (typed : HasBits e w) (single : OverLoop l e) :
    ∀ form, findLinear iw e = .ok form → form.Exact l w e := by
  have whole {e : Expr} {w : Int} {form : LinearForm}
      (run : (.ok ⟨none, e, true⟩ : Except Fault LinearForm) = .ok form) : form.Exact l w e := by
    cases run
    exact LinearForm.exact_none
  induction typed using HasBits.cast_induction with
  | const => exact fun form run => whole run
  | unknown => exact fun form run => whole run
  | quotient => exact fun form run => whole run
  | cast => exact fun form run => findLinear_cast_exact run
  | @recurrence start step m w hstart hstep =>
    obtain ⟨known, within, within'⟩ := within_recurrence.mp single
    intro form run _ a m' found
    cases run
    cases found
    refine ⟨known, ⟨hstep, within'⟩, ⟨hstart, within⟩, fun ρ => ?_⟩
    rw [value_recurrence, known, add_comm]
  | @nary op es w several parts ih =>
    have within := within_nary.mp single
    have ops : Operands (· = l) w es := fun e he => ⟨parts e he, within e he⟩
    have each := fun e he => ih e he (within e he)
    intro form run
    cases op with
    | signedMax | unsignedMax => exact whole run
    | sum => exact findLinear_sum_exact ops each run
    | product => exact findLinear_product_exact ops each run

end search

/-- What is made of a safe form is an expression over the loop, of the same value. -/
theorem asRecurrence_exact (iw : Int) (typed : HasBits e w) (single : OverLoop l e) :
    ∃ r safe, asRecurrence iw e = .ok (r, safe) ∧ HasBits r w ∧
      (safe = true → OverLoop l r ∧ ∀ ρ, value w ρ r = value w ρ e) := by
  obtain ⟨form, hform, parts⟩ := findLinear_typed iw typed
  have exact := findLinear_exact typed single form hform
  simp only [asRecurrence, linearForm, hform, ok_bind, pure_eq_ok]
  cases linear : form.linear with
  | none => exact ⟨e, true, rfl, typed, fun _ => ⟨single, fun _ => rfl⟩⟩
  | some part =>
    obtain ⟨a, m⟩ := part
    refine ⟨_, _, rfl, hasBits_recur _ parts.free (parts.linear (a, m) linear), fun trusted => ?_⟩
    have safe : form.safe = true := by simpa using trusted
    obtain ⟨rfl, split⟩ := exact safe a m linear
    have stands (ρ : Valuation) := recur_stands (L := (· = m)) (ρ := ρ) m rfl split.free.1
      split.coefficient.1 split.free.2 split.coefficient.2
    refine ⟨(stands default).within, fun ρ => ?_⟩
    rw [(stands ρ).value_eq, split.value_eq ρ, add_comm]

/-- Over a single loop, every expression is taken apart, and parts that are marked safe are exact:
the coefficient times the iterations of the loop and the free part add up to the expression, as the
recurrence made of them does. -/
theorem linearParts_exact (iw : Int) (typed : HasBits e w) (single : OverLoop l e) :
    (∃ parts, linearParts iw e = .ok parts ∧ HasBits parts.a w ∧ HasBits parts.b w ∧
      (parts.safe = true → ∀ ρ, value w ρ e =
        value w ρ parts.a * (ρ.count l : ZMod (Word.modulus w)) + value w ρ parts.b)) ∧
    ∃ r safe, asRecurrence iw e = .ok (r, safe) ∧ HasBits r w ∧
      (safe = true → ∀ ρ, value w ρ r = value w ρ e) := by
  obtain ⟨r, safe, run, bits, exact⟩ := asRecurrence_exact iw typed single
  refine ⟨?_, r, safe, run, bits, fun trusted => (exact trusted).2⟩
  simp only [linearParts, run, ok_bind]
  split
  · next start step m =>
    obtain ⟨first, second⟩ := HasBits.recurrence_iff.mp bits
    refine ⟨_, rfl, second, first, fun trusted ρ => ?_⟩
    obtain ⟨single, same⟩ := exact trusted
    obtain ⟨known, -, -⟩ := within_recurrence.mp single
    rw [← same ρ, value_recurrence, known, add_comm]
  · refine ⟨⟨const 0 w, r, safe⟩, ?_, hasBits_zero bits.pos, bits, fun trusted ρ => ?_⟩
    · simp only [bits.width, ok_bind, Option.getD_some, zero_eq bits.pos, pure_eq_ok]
    · simp [(exact trusted).2 ρ]

/-- A multiple of a recurrence, and beside it the iterations of its loop in a narrower word that was
extended: the cast does not matter, as the search stops before it. -/
def castBeside : Expr :=
  sum [product [unknown ⟨"x", 3⟩ 64, recurrence (const 2 64) (const 3 64) innerLoop],
    cast .zeroExtend (recurrence (const 0 32) (const 1 32) innerLoop) 64]

theorem castBeside_typed : HasBits castBeside 64 := by decide +kernel

theorem linearParts_exact_castBeside : HasBits castBeside 64 ∧ OverLoop innerLoop castBeside ∧
    ∃ parts, linearParts 64 castBeside = .ok parts ∧ parts.safe = true ∧ ∀ ρ,
      value 64 ρ castBeside = value 64 ρ parts.a * ρ.count innerLoop + value 64 ρ parts.b := by
  have single : OverLoop innerLoop castBeside := by simp [castBeside, OverLoop]
  have marked : (linearParts 64 castBeside).map LinearParts.safe = .ok true := by decide +kernel
  obtain ⟨⟨parts, run, -, -, exact⟩, -⟩ := linearParts_exact 64 castBeside_typed single
  have safe : parts.safe = true := by simpa [run, Except.map] using marked
  exact ⟨castBeside_typed, single, parts, run, safe, exact safe⟩

end ShapeRecovery.Expr
