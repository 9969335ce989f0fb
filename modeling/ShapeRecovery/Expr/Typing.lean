import ShapeRecovery.Expr.Basic
import ShapeRecovery.Word

namespace ShapeRecovery

/-- `v` is the signed reading of a word of `bits` bits. -/
def Word.InRange (v bits : Int) : Prop :=
  -(modulus (bits - 1) : Int) ≤ v ∧ v < modulus (bits - 1)

instance (v bits : Int) : Decidable (Word.InRange v bits) :=
  inferInstanceAs (Decidable (_ ∧ _))

namespace Expr

inductive HasBits : Expr → Int → Prop
  | const {v w : Int} (pos : 0 < w) (inRange : Word.InRange v w) : HasBits (.const v w) w
  | unknown {s : Symbol} {w : Int} (pos : 0 < w) : HasBits (.unknown s w) w
  | nary {op : Nary} {ops : List Expr} {w : Int} (several : 2 ≤ ops.length)
      (parts : ∀ e ∈ ops, HasBits e w) : HasBits (.nary op ops) w
  | quotient {a b : Expr} {w : Int} (lhs : HasBits a w) (rhs : HasBits b w) :
      HasBits (.quotient a b) w
  | narrow {e : Expr} {v w : Int} (pos : 0 < w) (narrower : w < v) (arg : HasBits e v) :
      HasBits (.cast .trunc e w) w
  | signExtend {e : Expr} {v w : Int} (wider : v < w) (arg : HasBits e v) :
      HasBits (.cast .signExtend e w) w
  | zeroExtend {e : Expr} {v w : Int} (wider : v < w) (arg : HasBits e v) :
      HasBits (.cast .zeroExtend e w) w
  | recurrence {a b : Expr} {l : Loop} {w : Int} (start : HasBits a w) (step : HasBits b w) :
      HasBits (.recurrence a b l) w

/-- A well-formed expression has a positive width. -/
theorem HasBits.pos {e : Expr} {w : Int} (h : HasBits e w) : 0 < w := by
  induction h with
  | const pos _ => exact pos
  | unknown pos => exact pos
  | @nary _ ops _ several _ ih =>
    cases ops with
    | nil => simp at several
    | cons e _ => exact ih e (by simp)
  | quotient _ _ ih _ => exact ih
  | narrow pos _ _ _ => exact pos
  | signExtend wider _ ih => omega
  | zeroExtend wider _ ih => omega
  | recurrence _ _ ih _ => exact ih

/-- The width that is read off a well-formed expression is its own. -/
theorem HasBits.width {e : Expr} {w : Int} (h : HasBits e w) : e.width = .ok (some w) := by
  induction h with
  | @nary _ ops _ several _ ih =>
    cases ops with
    | nil => simp at several
    | cons e _ => simpa [Expr.width] using ih e (by simp)
  | quotient _ _ ih _ => simpa [Expr.width] using ih
  | recurrence _ _ ih _ => simpa [Expr.width] using ih
  | _ => rfl

mutual

/-- Whether `e` is a well-formed value of `w` bits. -/
def checkBits : Expr → Int → Bool
  | .const v b, w => b = w ∧ 0 < w ∧ Word.InRange v w
  | .unknown _ b, w => b = w ∧ 0 < w
  | .nary _ ops, w => decide (2 ≤ ops.length) && checkAllBits ops w
  | .quotient a b, w | .recurrence a b _, w => checkBits a w && checkBits b w
  | .cast kind e b, w =>
    match e.width with
    | .ok (some v) =>
      decide (b = w ∧ 0 < w ∧ if kind = .trunc then w < v else v < w) && checkBits e v
    | _ => false
  | .uncomputable, _ => false

def checkAllBits : List Expr → Int → Bool
  | [], _ => true
  | e :: es, w => checkBits e w && checkAllBits es w

end

theorem checkAllBits_iff {es : List Expr} {w : Int} :
    checkAllBits es w = true ↔ ∀ e ∈ es, checkBits e w = true := by
  induction es with
  | nil => simp [checkAllBits]
  | cons e es ih => simp [checkAllBits, ih]

/-- The check accepts what is well formed. -/
theorem HasBits.check {e : Expr} {w : Int} (h : HasBits e w) : checkBits e w = true := by
  induction h with
  | const pos inRange => simp [checkBits, pos, inRange]
  | unknown pos => simp [checkBits, pos]
  | nary several _ ih => simpa [checkBits, several] using checkAllBits_iff.mpr ih
  | quotient _ _ lhs rhs => simp [checkBits, lhs, rhs]
  | recurrence _ _ start step => simp [checkBits, start, step]
  | narrow pos narrower arg ih => simp [checkBits, arg.width, pos, narrower, ih]
  | signExtend wider arg ih | zeroExtend wider arg ih =>
    have pos := arg.pos
    simp [checkBits, arg.width, wider, ih]
    omega

mutual

/-- The check accepts nothing else. -/
theorem hasBits_of_check : ∀ (e : Expr) (w : Int), checkBits e w = true → HasBits e w
  | .const v b, w, h => by
    obtain ⟨rfl, pos, inRange⟩ : b = w ∧ 0 < w ∧ Word.InRange v w := by simpa [checkBits] using h
    exact .const pos inRange
  | .unknown s b, w, h => by
    obtain ⟨rfl, pos⟩ : b = w ∧ 0 < w := by simpa [checkBits] using h
    exact .unknown pos
  | .nary op ops, w, h => by
    obtain ⟨several, parts⟩ : 2 ≤ ops.length ∧ checkAllBits ops w = true := by
      simpa [checkBits] using h
    exact .nary several (allBits_of_check ops w parts)
  | .quotient a b, w, h => by
    obtain ⟨lhs, rhs⟩ : checkBits a w = true ∧ checkBits b w = true := by simpa [checkBits] using h
    exact .quotient (hasBits_of_check a w lhs) (hasBits_of_check b w rhs)
  | .recurrence a b l, w, h => by
    obtain ⟨start, step⟩ : checkBits a w = true ∧ checkBits b w = true := by
      simpa [checkBits] using h
    exact .recurrence (hasBits_of_check a w start) (hasBits_of_check b w step)
  | .cast kind e b, w, h => by
    simp only [checkBits] at h
    split at h
    · next v _ =>
      obtain ⟨⟨rfl, pos, direction⟩, arg⟩ :
          (b = w ∧ 0 < w ∧ if kind = .trunc then w < v else v < w) ∧ checkBits e v = true := by
        simpa using h
      have arg := hasBits_of_check e v arg
      cases kind with
      | trunc => exact .narrow pos (by simpa using direction) arg
      | signExtend => exact .signExtend (by simpa using direction) arg
      | zeroExtend => exact .zeroExtend (by simpa using direction) arg
    · cases h
  | .uncomputable, _, h => by simp [checkBits] at h

theorem allBits_of_check : ∀ (es : List Expr) (w : Int), checkAllBits es w = true →
    ∀ e ∈ es, HasBits e w
  | [], _, _ => by simp
  | e :: es, w, h => by
    obtain ⟨here, rest⟩ : checkBits e w = true ∧ checkAllBits es w = true := by
      simpa [checkAllBits] using h
    exact List.forall_mem_cons.mpr ⟨hasBits_of_check e w here, allBits_of_check es w rest⟩

end

theorem checkBits_iff {e : Expr} {w : Int} : e.checkBits w = true ↔ HasBits e w :=
  ⟨hasBits_of_check e w, HasBits.check⟩

instance (e : Expr) (w : Int) : Decidable (HasBits e w) :=
  decidable_of_iff (e.checkBits w = true) checkBits_iff

end Expr

end ShapeRecovery
