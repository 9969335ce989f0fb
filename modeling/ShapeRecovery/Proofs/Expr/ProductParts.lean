import ShapeRecovery.Expr.CommonDivisor
import ShapeRecovery.Proofs.Expr.Hereditary

namespace ShapeRecovery.Expr

variable {w : Int} {P : Expr → Prop} {iw : Int}

theorem mul_add_mul_lt {a b c d m n : Nat} (less : a + b < m) (hc : c ≤ n) (hd : d ≤ n)
    (pos : 0 < n) : a * c + b * d < m * n := by
  calc
    a * c + b * d ≤ a * n + b * n := Nat.add_le_add (Nat.mul_le_mul_left a hc) (Nat.mul_le_mul_left b hd)
    _ = (a + b) * n := (Nat.add_mul a b n).symm
    _ < m * n := Nat.mul_lt_mul_of_pos_right less pos

/-- The factors are taken apart into lighter parts of their width, of which `P` holds. -/
structure Parted (P : Expr → Prop) (w : Int) (factors : List Expr) (parts : ProductParts) : Prop where
  starts : AllBits parts.starts w
  steps : AllBits parts.steps w
  startsKept : ∀ e ∈ parts.starts, P e
  stepsKept : ∀ e ∈ parts.steps, P e
  startsLight : weightProduct parts.starts ≤ weightProduct factors
  stepsLight : weightProduct parts.steps ≤ weightProduct factors
  lighter : parts.hasRecurrence = true →
    weightProduct parts.starts + weightProduct parts.steps < weightProduct factors
  steps_ne_nil : parts.hasRecurrence = true → parts.steps ≠ []

namespace Parted

variable {fs gs : List Expr} {p q : ProductParts}

theorem nothing (es : List Expr) : Parted P w es .nothing where
  starts := AllBits.nil
  steps := AllBits.nil
  startsKept := by simp [ProductParts.nothing]
  stepsKept := by simp [ProductParts.nothing]
  startsLight := weightProduct_pos es
  stepsLight := weightProduct_pos es
  lighter h := by simp [ProductParts.nothing] at h
  steps_ne_nil h := by simp [ProductParts.nothing] at h

theorem append (left : Parted P w fs p) (right : Parted P w gs q) :
    Parted P w (fs ++ gs) (p.append q) where
  starts := AllBits.append.mpr ⟨left.starts, right.starts⟩
  steps := AllBits.append.mpr ⟨left.steps, right.steps⟩
  startsKept e he := (List.mem_append.mp he).elim (left.startsKept e) (right.startsKept e)
  stepsKept e he := (List.mem_append.mp he).elim (left.stepsKept e) (right.stepsKept e)
  startsLight := by
    simpa [ProductParts.append] using Nat.mul_le_mul left.startsLight right.startsLight
  stepsLight := by
    simpa [ProductParts.append] using Nat.mul_le_mul left.stepsLight right.stepsLight
  lighter moves := by
    simp only [ProductParts.append, weightProduct_append]
    rcases Bool.or_eq_true_iff.mp moves with moves | moves
    · exact mul_add_mul_lt (left.lighter moves) right.startsLight right.stepsLight
        (weightProduct_pos gs)
    · have less := mul_add_mul_lt (right.lighter moves) left.startsLight left.stepsLight
        (weightProduct_pos fs)
      simpa only [Nat.mul_comm] using less
  steps_ne_nil moves := by
    simp only [ProductParts.append, ne_eq, List.append_eq_nil_iff, not_and_or]
    exact (Bool.or_eq_true_iff.mp moves).imp left.steps_ne_nil right.steps_ne_nil

/-- A factor that does not change with a loop is searched on both sides. -/
theorem still {e : Expr} (typed : HasBits e w) (kept : P e) : Parted P w [e] (.still e) where
  starts := by simpa [ProductParts.still] using typed
  steps := by simpa [ProductParts.still] using typed
  startsKept := by simpa [ProductParts.still] using kept
  stepsKept := by simpa [ProductParts.still] using kept
  startsLight := le_rfl
  stepsLight := le_rfl
  lighter h := by simp [ProductParts.still] at h
  steps_ne_nil h := by simp [ProductParts.still] at h

/-- The parts `a` and `b` of a recurrence take the place of a factor that weighs more than both. -/
theorem moving {e a b : Expr} (ha : HasBits a w) (hb : HasBits b w) (start : P a) (step : P b)
    (lighter : weight a + weight b < weight e) (skip : Bool) :
    Parted P w [e] ⟨if skip then [] else [a], [b], true⟩ := by
  have low := weight_pos a
  cases skip with
  | true =>
    exact {
      starts := AllBits.nil
      steps := by simpa using hb
      startsKept := by simp
      stepsKept := by simpa using step
      startsLight := weightProduct_pos [e]
      stepsLight := by
        simp only [weightProduct, mul_one]
        omega
      lighter _ := by
        simp only [if_true, weightProduct, mul_one]
        omega
      steps_ne_nil _ := by simp }
  | false =>
    exact {
      starts := by simpa using ha
      steps := by simpa using hb
      startsKept := by simpa using start
      stepsKept := by simpa using step
      startsLight := by
        simp only [Bool.false_eq_true, if_false, weightProduct, mul_one]
        omega
      stepsLight := by
        simp only [weightProduct, mul_one]
        omega
      lighter _ := by
        simp only [Bool.false_eq_true, if_false, weightProduct, mul_one]
        omega
      steps_ne_nil _ := by simp }

end Parted

/-- A conversion weighs what it converts. -/
theorem weight_convert {kind : CastKind} {w : Int} {e r : Expr} (run : convert kind w e = .ok r) :
    weight r = weight e := by
  refine convert_induction (P := fun a => weight a = weight e) rfl (fun v b u r here made => ?_)
    (fun _ _ whole => whole) (fun _ here _ _ _ => here) run
  obtain ⟨u, -, rfl⟩ := ofInt_cases made
  exact here

/-- What is taken whole of a factor of a product: a sum and a cast of a sum or of a product, a
constant and an unknown value, and the two parts of a recurrence, also below a cast. The other factors
are passed over. -/
def factorPieces (e : Expr) : List Expr :=
  match e with
  | cast _ (recurrence start step _) _ | recurrence start step _ => [start, step]
  | cast _ (nary .product _) _ | cast _ (nary .sum _) _ | cast _ (unknown ..) _ => [e]
  | const .. | unknown .. | nary .sum _ => [e]
  | _ => []

/-- A cast of a well-formed operand changes the width in its direction. -/
theorem HasBits.cast_iff {kind : CastKind} {e : Expr} {b w : Int} :
    HasBits (.cast kind e b) w ↔ b = w ∧ ∃ v, HasBits e v ∧ Admits kind v w ∧ v ≠ w := by
  constructor
  · intro typed
    cases typed with
    | narrow pos narrower arg => exact ⟨rfl, _, arg, ⟨pos, narrower.le⟩, narrower.ne'⟩
    | signExtend wider arg => exact ⟨rfl, _, arg, wider.le, wider.ne⟩
    | zeroExtend wider arg => exact ⟨rfl, _, arg, wider.le, wider.ne⟩
  · rintro ⟨rfl, v, arg, admits, other⟩
    exact hasBits_cast arg admits other

variable (closed : Hereditary iw P)
include closed

/-- The parts of a recurrence below a cast, with the cast around each of them. -/
theorem castParts_spec {kind : CastKind} {a b : Expr} {l : Loop} {bits : Int}
    (typed : HasBits (.cast kind (.recurrence a b l) bits) w) (start : P a) (step : P b) :
    ∃ a' b', convert kind bits a = .ok a' ∧ convert kind bits b = .ok b' ∧
      (HasBits a' w ∧ P a') ∧ (HasBits b' w ∧ P b') ∧ weight a' = weight a ∧ weight b' = weight b := by
  obtain ⟨rfl, v, inner, admits, -⟩ := HasBits.cast_iff.mp typed
  obtain ⟨ha, hb⟩ := HasBits.recurrence_iff.mp inner
  obtain ⟨a', ha', atyped⟩ := convert_typed ha admits
  obtain ⟨b', hb', btyped⟩ := convert_typed hb admits
  exact ⟨a', b', ha', hb', ⟨atyped, closed.cast ha admits start ha'⟩,
    ⟨btyped, closed.cast hb admits step hb'⟩, weight_convert ha', weight_convert hb'⟩

private theorem ofFactor_parted {e : Expr} (typed : HasBits e w) (kept : ∀ p ∈ factorPieces e, P p) :
    ∃ p, ProductParts.ofFactor iw e = .ok p ∧ Parted P w [e] p := by
  have still (whole : ProductParts.ofFactor iw e = .ok (.still e)) (piece : e ∈ factorPieces e) :
      ∃ p, ProductParts.ofFactor iw e = .ok p ∧ Parted P w [e] p :=
    ⟨_, whole, .still typed (kept e piece)⟩
  have passed (none : ProductParts.ofFactor iw e = .ok .nothing) :
      ∃ p, ProductParts.ofFactor iw e = .ok p ∧ Parted P w [e] p :=
    ⟨_, none, .nothing [e]⟩
  cases e with
  | const => exact still rfl (by simp [factorPieces])
  | unknown => exact still rfl (by simp [factorPieces])
  | quotient => exact passed rfl
  | uncomputable => exact passed rfl
  | nary op es =>
    cases op with
    | sum => exact still rfl (by simp [factorPieces])
    | _ => exact passed rfl
  | recurrence a b l =>
    obtain ⟨ha, hb⟩ := HasBits.recurrence_iff.mp typed
    have start := kept a (by simp [factorPieces])
    have step := kept b (by simp [factorPieces])
    refine ⟨_, rfl, .moving ha hb start step ?_ a.isZero⟩
    simp only [weight]
    omega
  | cast kind arg bits =>
    cases arg with
    | recurrence a b l =>
      have start := kept a (by simp [factorPieces])
      have step := kept b (by simp [factorPieces])
      obtain ⟨a', b', ha', hb', ⟨atyped, first⟩, ⟨btyped, second⟩, low, low'⟩ :=
        castParts_spec closed typed start step
      have parted := Parted.moving (e := .cast kind (.recurrence a b l) bits) atyped btyped first second
        (by
          simp only [weight]
          omega) a.isZero
      refine ⟨_, ?_, parted⟩
      simp only [ProductParts.ofFactor, withOperands_cast, ok_bind, hb', ha']
      split <;> rfl
    | unknown => exact still rfl (by simp [factorPieces])
    | nary op es =>
      cases op with
      | sum | product => exact still rfl (by simp [factorPieces])
      | _ => exact passed rfl
    | _ => exact passed rfl

/-- All factors of a product are taken apart. -/
theorem ofFactors_parted {es : List Expr} (typed : AllBits es w)
    (kept : ∀ e ∈ es, ∀ p ∈ factorPieces e, P p) :
    ∃ p, ProductParts.ofFactors iw es = .ok p ∧ Parted P w es p := by
  induction es with
  | nil => exact ⟨_, rfl, .nothing []⟩
  | cons e es ih =>
    obtain ⟨he, hes⟩ := AllBits.cons.mp typed
    obtain ⟨first, others⟩ := List.forall_mem_cons.mp kept
    obtain ⟨p, hp, here⟩ := ofFactor_parted closed he first
    obtain ⟨q, hq, rest⟩ := ih hes others
    exact ⟨p.append q, by simp only [ProductParts.ofFactors, hp, hq, ok_bind]; rfl, here.append rest⟩

end ShapeRecovery.Expr
