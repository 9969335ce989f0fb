import ShapeRecovery.Proofs.Expr.Substitution

namespace ShapeRecovery.Expr

/-- Every recurrence in `e`, at any depth and below any operator, is over `l`. -/
abbrev OverLoop (l : Loop) (e : Expr) : Prop := Within (· = l) e

/-- `env` knows only unknowns, and replaces each by an expression of its width over `l`. -/
def ReplacesUnknowns (l : Loop) (env : Expr → Option Expr) : Prop :=
  ∀ e r, env e = some r → ∃ s w, e = unknown s w ∧ HasBits r w ∧ OverLoop l r

/-- `ρ`, but every unknown that `env` knows has the value of its replacement. -/
def Valuation.update (ρ : Valuation) (env : Expr → Option Expr) : Valuation where
  unknown s w :=
    match env (.unknown s w) with
    | some r => r.meaning ρ
    | none => ρ.unknown s w
  count := ρ.count
  overZero := ρ.overZero

private theorem interprets_update {l : Loop} {env : Expr → Option Expr} (ρ : Valuation)
    (replaces : ReplacesUnknowns l env) : Interprets (· = l) ρ (ρ.update env) env where
  replaced := by
    intro e r v known typed _
    obtain ⟨s, w, rfl, rtyped, within⟩ := replaces e r known
    cases typed
    exact ⟨rtyped, within, by simp only [value, meaning, Valuation.update, known]⟩
  unknown := by
    intro s b fresh
    simp only [Valuation.update, fresh]
  count := rfl
  overZero := rfl

/-- Over the loop `l` and under the valuation `ρ`, what is built for an operation exists, has the
width of the operation, is again over `l`, and has the value that the operation has on the values
of the operands. -/
structure BuildsValues (iw : Int) (l : Loop) (ρ : Valuation) : Prop where
  product : ∀ w es, (∀ e ∈ es, HasBits e w ∧ OverLoop l e) → (es = [] → 0 < w ∧ w = iw) →
    Yields (· = l) ρ w (productOf iw es) (es.map (value w ρ)).prod
  negation : ∀ w e, HasBits e w → OverLoop l e →
    Yields (· = l) ρ w (negation iw e) (-value w ρ e)
  difference : ∀ w a b, HasBits a w → HasBits b w → OverLoop l a → OverLoop l b →
    Yields (· = l) ρ w (difference iw a b) (value w ρ a - value w ρ b)
  /-- The unsigned quotient; by zero it is what `ρ` says. -/
  quotient : ∀ w a b, HasBits a w → HasBits b w → OverLoop l a → OverLoop l b →
    Yields (· = l) ρ w (unsignedQuotient a b)
      ((if readUnsigned w (b.meaning ρ) = 0 then ρ.overZero w (readUnsigned w (a.meaning ρ))
        else readUnsigned w (a.meaning ρ) / readUnsigned w (b.meaning ρ) : Int) :
          ZMod (Word.modulus w))
  signedMaximum : ∀ w es, (∀ e ∈ es, HasBits e w ∧ OverLoop l e) → es ≠ [] →
    Yields (· = l) ρ w (signedMaximum iw es)
      ((greatestOf (es.map fun e => readSigned w (e.meaning ρ)) : Int) : ZMod (Word.modulus w))
  unsignedMaximum : ∀ w es, (∀ e ∈ es, HasBits e w ∧ OverLoop l e) → es ≠ [] →
    Yields (· = l) ρ w (unsignedMaximum iw es)
      ((greatestOf (es.map fun e => readUnsigned w (e.meaning ρ)) : Int) : ZMod (Word.modulus w))
  truncation : ∀ w e v, HasBits e w → OverLoop l e → 0 < v → v ≤ w →
    Yields (· = l) ρ v (convert .trunc v e) ((e.meaning ρ : Int) : ZMod (Word.modulus v))
  signExtension : ∀ w e v, HasBits e w → OverLoop l e → w ≤ v →
    Yields (· = l) ρ v (convert .signExtend v e)
      ((readSigned w (e.meaning ρ) : Int) : ZMod (Word.modulus v))
  zeroExtension : ∀ w e v, HasBits e w → OverLoop l e → w ≤ v →
    Yields (· = l) ρ v (convert .zeroExtend v e)
      ((readUnsigned w (e.meaning ρ) : Int) : ZMod (Word.modulus v))
  recurrence : ∀ w a b, HasBits a w → HasBits b w → OverLoop l a → OverLoop l b →
    Yields (· = l) ρ w (.ok (recur a b l)) (value w ρ a + value w ρ b * (ρ.count l : Int))
  substitution : ∀ w e env, HasBits e w → OverLoop l e → ReplacesUnknowns l env →
    Yields (· = l) ρ w (substitute iw env e) (value w (ρ.update env) e)

/-- The constructors and substitution are sound over a single loop. -/
theorem buildsValues (iw : Int) (l : Loop) (ρ : Valuation) : BuildsValues iw l ρ := by
  have inStep : InStep (· = l) ρ := by
    rintro m n rfl rfl
    rfl
  exact {
    product := by
      intro w es ops default
      by_cases none : es = []
      · obtain ⟨pos, rfl⟩ := default none
        simpa [none] using productOf_nil pos
      · exact productOf_yields iw inStep ops none
    negation := fun w e typed within => negation_yields iw inStep typed within
    difference := fun w a b ha hb within within' =>
      difference_yields iw inStep ha hb within within'
    quotient := fun w a b ha hb within within' => unsignedQuotient_yields ρ ha hb within within'
    signedMaximum := fun w es ops some => maximum_yields true ρ iw ops some
    unsignedMaximum := fun w es ops some => maximum_yields false ρ iw ops some
    truncation := fun w e v typed within pos le => convert_yields ρ typed within ⟨pos, le⟩
    signExtension := fun w e v typed within le => convert_yields ρ typed within le
    zeroExtension := fun w e v typed within le => convert_yields ρ typed within le
    recurrence := fun w a b ha hb within within' =>
      ⟨_, rfl, recur_stands (L := (· = l)) l rfl ha hb within within'⟩
    substitution := fun w e env typed within replaces =>
      substitute_yields iw inStep (interprets_update ρ replaces) typed within }

def squared : Expr := product [unknown ⟨"x", 3⟩ 64, unknown ⟨"x", 3⟩ 64]

/-- The iterations of the outer loop, for the unknown that is squared. -/
def counting : Expr → Option Expr :=
  lookup [(unknown ⟨"x", 3⟩ 64, recurrence (const 0 64) (const 1 64) outerLoop)]

theorem counting_replaces : ReplacesUnknowns outerLoop counting := by
  intro e r known
  by_cases key : unknown ⟨"x", 3⟩ 64 = e
  · obtain rfl : recurrence (const 0 64) (const 1 64) outerLoop = r := by
      simpa [counting, lookup, key] using known
    refine ⟨⟨"x", 3⟩, 64, key.symm, by decide +kernel, ?_⟩
    simp [OverLoop]
  · simp [counting, lookup, key] at known

theorem buildsValues_squared : HasBits squared 64 ∧ OverLoop outerLoop squared ∧
    ReplacesUnknowns outerLoop counting ∧
    Yields (· = outerLoop) default 64 (substitute 64 counting squared)
      (value 64 (Valuation.update default counting) squared) := by
  have typed : HasBits squared 64 := by decide
  have within : OverLoop outerLoop squared := by simp [squared, OverLoop]
  exact ⟨typed, within, counting_replaces, (buildsValues 64 outerLoop default).substitution 64
    squared counting typed within counting_replaces⟩

end ShapeRecovery.Expr
