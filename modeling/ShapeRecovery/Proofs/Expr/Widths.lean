import ShapeRecovery.Proofs.Expr.LinearForm
import ShapeRecovery.Proofs.Expr.Search
import ShapeRecovery.Proofs.Expr.ZeroFactor

namespace ShapeRecovery.Expr

/-- The run `x` ends in an expression of `w` bits. -/
def Gives (w : Int) (x : Except Fault Expr) : Prop := ∃ r, x = .ok r ∧ HasBits r w

/-- `env` replaces each expression that it knows by one of the same width. -/
def KeepsBits (env : Expr → Option Expr) : Prop :=
  ∀ e r v, env e = some r → HasBits e v → HasBits r v

/-- Every operation on typed expressions gives one of the width that it asks for, whatever the default
width is. -/
structure KeepsWidths (settings : Settings) : Prop where
  sum : ∀ w es, es ≠ [] → AllBits es w → Gives w (sumOf settings.indexWidth es)
  product : ∀ w es, es ≠ [] → AllBits es w → Gives w (productOf settings.indexWidth es)
  negation : ∀ w e, HasBits e w → Gives w (negation settings.indexWidth e)
  difference : ∀ w a b, HasBits a w → HasBits b w → Gives w (difference settings.indexWidth a b)
  quotient : ∀ w a b, HasBits a w → HasBits b w → Gives w (unsignedQuotient a b)
  signedMaximum : ∀ w es, es ≠ [] → AllBits es w → Gives w (signedMaximum settings.indexWidth es)
  unsignedMaximum : ∀ w es, es ≠ [] → AllBits es w → Gives w (unsignedMaximum settings.indexWidth es)
  truncation : ∀ v w e, HasBits e v → 0 < w → w ≤ v → Gives w (convert .trunc w e)
  signExtension : ∀ v w e, HasBits e v → v ≤ w → Gives w (convert .signExtend w e)
  zeroExtension : ∀ v w e, HasBits e v → v ≤ w → Gives w (convert .zeroExtend w e)
  recurrence : ∀ w a b l, HasBits a w → HasBits b w → HasBits (recur a b l) w
  substitution : ∀ w e env, HasBits e w → KeepsBits env → Gives w (substitute settings.indexWidth env e)
  /-- Quotient and remainder. -/
  division : ∀ w a b, HasBits a w → HasBits b w →
    ∃ q r, quotRem settings.indexWidth a b = .ok (q, r) ∧ HasBits q w ∧ HasBits r w
  /-- The coefficient of a loop and what remains beside it. -/
  linear : ∀ w e, HasBits e w →
    ∃ form, linearParts settings.indexWidth e = .ok form ∧ HasBits form.a w ∧ HasBits form.b w
  /-- The search for a divisor may be refused for one cause only, a factor zero. -/
  divisor : ∀ w es, es ≠ [] → AllBits es w →
    Ends (· = .notNonzeroConstant) (commonDivisor settings es).outcome (HasBits · w)
  /-- Where no product has a factor zero, it is not refused. -/
  zeroFreeDivisor : ∀ w es, es ≠ [] → AllBits es w → ZeroFree es →
    Gives w (commonDivisor settings es).outcome

variable {w : Int} {es : List Expr} {allowed : Fault → Prop} {settings : Settings} {P : Expr → Prop}

/-- Of expressions of one width, a divisor that is found has this width. -/
theorem commonDivisor_typed (seeks : Seeks allowed settings P) (some : es ≠ []) (typed : AllBits es w)
    (kept : ∀ e ∈ es, P e) : Ends allowed (commonDivisor settings es).outcome (HasBits · w) := by
  have searched : SearchInput allowed settings P es := {
    some
    fit := fun e he => (typed e he).wellFormed
    width := fun none => nomatch typed _ none
    sought := fun e he => seeks.closed.sought false (kept e he) }
  exact (commonDivisor_ends seeks searched).mono fun d found => found.typed w typed

/-- Widths are preserved. -/
theorem keepsWidths (settings : Settings) : KeepsWidths settings := by
  have still : InStep (fun _ => True) (default : Valuation) := fun _ _ _ _ => rfl
  have sum (w es) (some : es ≠ []) (typed : AllBits es w) : Gives w (sumOf settings.indexWidth es) :=
    (sumOf_yields _ still typed.operands some).typed
  have maximum (signed w es) (some : es ≠ []) (typed : AllBits es w) :
      Gives w (maximum signed settings.indexWidth es) :=
    (maximum_yields signed default _ typed.operands some).typed
  exact {
    sum
    product := fun w es some typed => (productOf_yields _ still typed.operands some).typed
    negation := fun w e typed => (negation_yields _ still typed (within_any e)).typed
    difference := fun w a b ha hb =>
      (difference_yields _ still ha hb (within_any a) (within_any b)).typed
    quotient := fun w a b => unsignedQuotient_typed
    signedMaximum := maximum true
    unsignedMaximum := maximum false
    truncation := fun v w e typed pos narrower => convert_typed typed ⟨pos, narrower⟩
    signExtension := fun v w e typed wider => convert_typed typed wider
    zeroExtension := fun v w e typed wider => convert_typed typed wider
    recurrence := fun w a b l => hasBits_recur l
    substitution := by
      intro w e env typed keeps
      have closed := hereditary_true settings.indexWidth
      obtain ⟨r, run, bits, -⟩ := closed.substitute keeps (fun _ _ _ => trivial) typed trivial
      exact ⟨r, run, bits⟩
    division := by
      intro w a b ha hb
      obtain ⟨⟨q, r⟩, run, divides⟩ := divideBy_spec settings.indexWidth hb ha
      exact ⟨q, r, run, divides.quotient, divides.remainder⟩
    linear := fun w e => linearParts_typed settings.indexWidth
    divisor := fun w es some typed =>
      commonDivisor_typed ⟨hereditary_true _, .inl rfl⟩ some typed fun _ _ => trivial
    zeroFreeDivisor := fun w es some typed free =>
      (commonDivisor_typed (seeks_zeroFree settings) some typed free).total fun _ => id }

/-- The cells of a table of eight bits, row by row. -/
def cells : Expr :=
  recurrence (recurrence (const 0 8) (unknown ⟨"n", 3⟩ 8) outerLoop) (const 1 8) innerLoop

/-- Rows of four cells. -/
def fourColumns : Expr → Option Expr := lookup [(unknown ⟨"n", 3⟩ 8, const 4 8)]

theorem cells_typed : HasBits cells 8 := by decide +kernel

theorem fourColumns_keepsBits : KeepsBits fourColumns := by
  intro e r v known typed
  by_cases key : unknown ⟨"n", 3⟩ 8 = e
  · subst key
    obtain rfl : const 4 8 = r := by simpa [fourColumns, lookup] using known
    cases typed
    decide
  · simp [fourColumns, lookup, key] at known

theorem keepsWidths_cells : HasBits cells 8 ∧ KeepsBits fourColumns ∧
    Gives 8 (sumOf 64 [cells, cells]) ∧ Gives 64 (convert .zeroExtend 64 cells) ∧
    Gives 8 (substitute 64 fourColumns cells) ∧
    Gives 8 (commonDivisor ⟨64, false⟩ [cells, const 4 8]).outcome := by
  have keeps := keepsWidths ⟨64, false⟩
  have both : AllBits [cells, const 4 8] 8 := by decide +kernel
  have free : ZeroFree [cells, const 4 8] := zeroFreeList_iff.mp (by decide +kernel)
  refine ⟨cells_typed, fourColumns_keepsBits, ?_, ?_, ?_, ?_⟩
  · exact keeps.sum 8 _ (by simp) (by simpa using cells_typed)
  · exact keeps.zeroExtension 8 64 _ cells_typed (by decide)
  · exact keeps.substitution 8 _ _ cells_typed fourColumns_keepsBits
  · exact keeps.zeroFreeDivisor 8 _ (by simp) both free

/-- A product whose recurrence steps by a product that has the factor zero one level down. -/
def hiddenZero : Expr :=
  product [recurrence (const 0 8)
      (product [const 1 8, product [unknown ⟨"y", 4⟩ 8, const 0 8]]) outerLoop,
    quotient (unknown ⟨"x", 5⟩ 8) (const 3 8)]

private theorem hiddenZero_typed : HasBits hiddenZero 8 := by decide +kernel

/-- The search opens the step as far as the factor zero and is refused, so that there is no divisor of
any width. -/
theorem divisor_hiddenZero_refused : HasBits hiddenZero 8 ∧
    ¬ Gives 8 (commonDivisor ⟨64, false⟩ [hiddenZero]).outcome := by
  have refused : (commonDivisor ⟨64, false⟩ [hiddenZero]).outcome = .error .notNonzeroConstant := by
    decide +kernel
  refine ⟨hiddenZero_typed, ?_⟩
  rintro ⟨d, run, -⟩
  rw [refused] at run
  cases run

end ShapeRecovery.Expr
