import ShapeRecovery.Expr.LinearForm
import ShapeRecovery.Proofs.Memory.Pointer

namespace ShapeRecovery.Expr

/-- Both parts of the form are values of `w` bits. -/
structure LinearForm.HasBits (form : LinearForm) (w : Int) : Prop where
  free : Expr.HasBits form.free w
  linear : ∀ part ∈ form.linear, Expr.HasBits part.1 w

/-- The parts of the recurrence that was found and the operands beside it have `w` bits. -/
structure Occurrence.HasBits (found : Occurrence) (w : Int) : Prop where
  coefficient : Expr.HasBits found.coefficient w
  free : Expr.HasBits found.free w
  others : AllBits found.others w

variable {w : Int} {e : Expr} {es : List Expr}

private theorem findAmong_typed (iw : Int) (typed : AllBits es w)
    (each : ∀ e ∈ es, ∃ form, findLinear iw e = .ok form ∧ form.HasBits w) :
    ∃ found safe, findAmong iw es = .ok (found, safe) ∧ ∀ o ∈ found, o.HasBits w := by
  induction es with
  | nil => exact ⟨none, true, rfl, by simp⟩
  | cons e es ih =>
    obtain ⟨form, hform, parts⟩ := each e (by simp)
    have others : AllBits es w := fun f hf => typed f (by simp [hf])
    cases linear : form.linear with
    | some part =>
      refine ⟨some ⟨part.1, part.2, form.free, es⟩, form.safe, ?_, ?_⟩
      · simp only [findAmong, hform, ok_bind, linear]
        rfl
      · simpa using ⟨parts.linear part linear, parts.free, others⟩
    | none =>
      obtain ⟨found, safe, run, bits⟩ := ih others fun f hf => each f (by simp [hf])
      refine ⟨found.map fun o => { o with others := e :: o.others }, form.safe && safe, ?_, ?_⟩
      · simp only [findAmong, hform, ok_bind, linear, run]
        rfl
      · intro o ho
        obtain ⟨o', ho', rfl⟩ := Option.map_eq_some_iff.mp ho
        obtain ⟨coefficient, free, rest⟩ := bits o' ho'
        exact ⟨coefficient, free, by simpa [AllBits] using ⟨typed e (by simp), rest⟩⟩

/-- The operands beside a recurrence with one part of it in its place. -/
theorem Occurrence.HasBits.beside {found : Occurrence} (bits : found.HasBits w)
    (typed : Expr.HasBits e w) : AllBits (found.others ++ [e]) w := by
  intro f hf
  rcases List.mem_append.mp hf with hf | hf
  · exact bits.others f hf
  · rwa [List.mem_singleton.mp hf]

private theorem findLinear_cast {kind : CastKind} {v : Int} (iw : Int) (admits : Admits kind v w)
    (inner : ∃ form, findLinear iw e = .ok form ∧ form.HasBits v) :
    ∃ form, findLinear iw (cast kind e w) = .ok form ∧ form.HasBits w := by
  obtain ⟨form, hform, parts⟩ := inner
  obtain ⟨free, hfree, freeTyped⟩ := convert_typed parts.free admits
  cases linear : form.linear with
  | none =>
    refine ⟨⟨none, free, false⟩, ?_, freeTyped, by simp⟩
    simp only [findLinear, hform, ok_bind, linear, withOperands_cast, hfree]
    rfl
  | some part =>
    obtain ⟨a, ha, typed⟩ := convert_typed (parts.linear part linear) admits
    refine ⟨⟨some (a, part.2), free, false⟩, ?_, freeTyped, by simpa using typed⟩
    simp only [findLinear, hform, ok_bind, linear, withOperands_cast, hfree, ha]
    rfl

theorem findLinear_typed (iw : Int) (typed : HasBits e w) :
    ∃ form, findLinear iw e = .ok form ∧ form.HasBits w := by
  -- What is neither a ring operator nor a cast nor a recurrence is free as a whole.
  have whole {e : Expr} {w : Int} {safe : Bool} (typed : HasBits e w) :
      (⟨none, e, safe⟩ : LinearForm).HasBits w := ⟨typed, by simp⟩
  induction typed using HasBits.cast_induction with
  | const pos inRange => exact ⟨_, rfl, whole (.const pos inRange)⟩
  | unknown pos => exact ⟨_, rfl, whole (.unknown pos)⟩
  | quotient lhs rhs => exact ⟨_, rfl, whole (.quotient lhs rhs)⟩
  | recurrence start step => exact ⟨_, rfl, start, by simpa using step⟩
  | cast _ admits _ ih => exact findLinear_cast iw admits ih
  | @nary op es w several parts ih =>
    obtain ⟨found, safe, run, bits⟩ := findAmong_typed iw parts ih
    match op, found with
    | .signedMax, _ | .unsignedMax, _ => exact ⟨_, rfl, whole (.nary several parts)⟩
    | .sum, none =>
      exact ⟨⟨none, nary .sum es, safe⟩, by simp [findLinear, run], whole (.nary several parts)⟩
    | .product, none =>
      exact ⟨⟨none, nary .product es, safe⟩, by simp [findLinear, run], whole (.nary several parts)⟩
    | .sum, some o =>
      have here := bits o rfl
      obtain ⟨b, hb, same⟩ := sumOf_spec iw (by simp) (here.beside here.free)
      refine ⟨⟨some (o.coefficient, o.loop), b, safe⟩, ?_, same.hasBits, ?_⟩
      · simp [findLinear, run, hb]
      · simpa using here.coefficient
    | .product, some o =>
      have here := bits o rfl
      obtain ⟨b, hb, same⟩ := productOf_spec iw (by simp) (here.beside here.free)
      obtain ⟨a, ha, same'⟩ := productOf_spec iw (by simp) (here.beside here.coefficient)
      refine ⟨⟨some (a, o.loop), b, safe⟩, ?_, same.hasBits, ?_⟩
      · simp [findLinear, run, ha, hb]
      · simpa using same'.hasBits

theorem asRecurrence_typed (iw : Int) (typed : HasBits e w) :
    ∃ r safe, asRecurrence iw e = .ok (r, safe) ∧ HasBits r w := by
  obtain ⟨form, hform, parts⟩ := findLinear_typed iw typed
  simp only [asRecurrence, linearForm, hform, ok_bind, pure_eq_ok]
  cases linear : form.linear with
  | none => exact ⟨e, true, rfl, typed⟩
  | some part => exact ⟨_, _, rfl, hasBits_recur _ parts.free (parts.linear part linear)⟩

/-- Both parts of what is read off an expression of `w` bits have `w` bits. -/
theorem linearParts_typed (iw : Int) (typed : HasBits e w) :
    ∃ form, linearParts iw e = .ok form ∧ HasBits form.a w ∧ HasBits form.b w := by
  obtain ⟨r, safe, run, bits⟩ := asRecurrence_typed iw typed
  simp only [linearParts, run, ok_bind]
  split
  · next start step l =>
    have parts := HasBits.recurrence_iff.mp bits
    exact ⟨_, rfl, parts.2, parts.1⟩
  · refine ⟨⟨const 0 w, r, safe⟩, ?_, hasBits_zero bits.pos, bits⟩
    simp only [bits.width, ok_bind, Option.getD_some, zero_eq bits.pos, pure_eq_ok]

/-- The two parts of a subscript can be shown, also where it cannot be computed. -/
theorem linearParts_total {iw : Int} (pos : 0 < iw) (fit : WellFormed e) :
    ∃ form, linearParts iw e = .ok form ∧ form.a.WellFormed ∧ form.b.WellFormed := by
  rcases fit with rfl | ⟨w, typed⟩
  · refine ⟨⟨const 0 iw, uncomputable, true⟩, ?_, (hasBits_zero pos).wellFormed, .inl rfl⟩
    simp only [linearParts, asRecurrence, linearForm, findLinear, width, ok_bind, pure_eq_ok,
      Option.getD_none, zero_eq pos]
  · obtain ⟨form, run, a, b⟩ := linearParts_typed iw typed
    exact ⟨form, run, a.wellFormed, b.wellFormed⟩

end ShapeRecovery.Expr
