import ShapeRecovery.Proofs.Expr.Hereditary
import ShapeRecovery.Proofs.Expr.Settled
import ShapeRecovery.Proofs.Expr.WrittenForm

namespace ShapeRecovery.Expr

/-- A well-formed value of `w` bits whose symbols have valid names. -/
structure Proper (w : Int) (e : Expr) : Prop where
  typed : HasBits e w
  named : e.Named

def AllProper (w : Int) (es : List Expr) : Prop := ∀ e ∈ es, Proper w e

variable {w : Int} {es fs : List Expr} {e : Expr} {l : Loop}

@[simp] theorem AllProper.nil : AllProper w [] := by simp [AllProper]

@[simp] theorem AllProper.cons : AllProper w (e :: es) ↔ Proper w e ∧ AllProper w es := by
  simp [AllProper]

@[simp] theorem AllProper.append : AllProper w (es ++ fs) ↔ AllProper w es ∧ AllProper w fs := by
  simp [AllProper, or_imp, forall_and]

theorem AllProper.typed (proper : AllProper w es) : AllBits es w := fun e he => (proper e he).typed

theorem AllProper.named (proper : AllProper w es) : ∀ e ∈ es, e.Named := fun e he => (proper e he).named

theorem AllProper.perm (proper : AllProper w es) (perm : es.Perm fs) : AllProper w fs :=
  fun e he => proper e (perm.mem_iff.mpr he)

/-- Symbols have valid names if those of the leaves and loops have. -/
theorem named_of_builtOver
    (built : BuiltOver Named (fun l => Text.isName l.name.name = true) e) : e.Named := by
  induction built with
  | const v w => exact named_const
  | leaf whole known => exact known
  | sum parts ih => exact named_nary.mpr ih
  | product parts ih => exact named_nary.mpr ih
  | recurrence known start step first second => exact named_recurrence.mpr ⟨known, first, second⟩

theorem Proper.builtOver (proper : Proper w e) :
    BuiltOver Named (fun l => Text.isName l.name.name = true) e := by
  obtain ⟨typed, named⟩ := proper
  induction typed using HasBits.parts_induction with
  | const pos inRange => exact .const _ _
  | sum several parts ih => exact .sum fun e he => ih e he (named_nary.mp named e he)
  | product several parts ih => exact .product fun e he => ih e he (named_nary.mp named e he)
  | recurrence start step first second =>
    obtain ⟨loop, start, step⟩ := named_recurrence.mp named
    exact .recurrence loop (first start) (second step)
  | leaf typed whole => exact .leaf whole named

/-- What stands for proper operands is proper. -/
theorem Same.proper {op : Nary} {g : Gap} (same : Same op w g es fs) (proper : AllProper w es) :
    AllProper w fs := fun f hf =>
  ⟨same.typed f hf, named_of_builtOver (same.built _ _ (fun e he => (proper e he).builtOver) f hf)⟩

theorem proper_ofInt {v : Int} (pos : 0 < w) (run : ofInt v w = .ok e) : Proper w e := by
  cases (ofInt_eq pos v).symm.trans run
  exact ⟨hasBits_const_bmod pos v, named_const⟩

theorem proper_recur {a b : Expr} (start : Proper w a) (step : Proper w b)
    (loop : Text.isName l.name.name = true) : Proper w (recur a b l) := by
  refine ⟨hasBits_recur l start.typed step.typed, ?_⟩
  exact recur_induction l named_uncomputable (fun _ => start.named) fun _ =>
    named_recurrence.mpr ⟨loop, start.named, step.named⟩

theorem Proper.recurrence {a b : Expr} (h : Proper w (.recurrence a b l)) :
    Proper w a ∧ Proper w b ∧ Text.isName l.name.name = true := by
  obtain ⟨first, second⟩ := HasBits.recurrence_iff.mp h.typed
  obtain ⟨loop, start, step⟩ := named_recurrence.mp h.named
  exact ⟨⟨first, start⟩, ⟨second, step⟩, loop⟩

section named

variable {iw : Int} {r : Expr}

private theorem named_flatten (op : Nary) (named : ∀ e ∈ es, e.Named) : ∀ e ∈ flatten op es, e.Named := by
  intro e mem
  rcases mem_flatten mem with ⟨mem, -⟩ | ⟨fs, mem, part⟩
  · exact named e mem
  · exact named_nary.mp (named _ mem) e part

theorem proper_flatten (op : Nary) (proper : AllProper w es) : AllProper w (flatten op es) := fun e he =>
  ⟨allBits_flatten proper.typed e he, named_flatten op proper.named e he⟩

theorem named_ofInt {v : Int} (run : ofInt v w = .ok r) : r.Named := by
  obtain ⟨u, -, rfl⟩ := ofInt_cases run
  exact named_const

theorem Named.operands (named : e.Named) : ∀ f ∈ e.operands, f.Named := by
  intro f hf
  cases e with
  | nary op es => exact named_nary.mp named f hf
  | quotient a b =>
    obtain ⟨first, second⟩ := named_quotient.mp named
    rcases List.mem_pair.mp hf with rfl | rfl <;> assumption
  | cast k a b =>
    obtain rfl := List.mem_singleton.mp hf
    exact named_cast.mp named
  | recurrence a b l =>
    obtain ⟨-, first, second⟩ := named_recurrence.mp named
    rcases List.mem_pair.mp hf with rfl | rfl <;> assumption
  | _ => simp [Expr.operands] at hf

theorem named_maximum {signed : Bool} (named : ∀ e ∈ es, e.Named) (run : maximum signed iw es = .ok r) :
    r.Named :=
  handsOn_maximum (fun _ _ => named_const) named_uncomputable Named.operands
    (fun _ parts => named_nary.mpr parts) named run

private theorem named_unsignedQuotient {a b : Expr} (lhs : a.Named) (rhs : b.Named)
    (run : unsignedQuotient a b = .ok r) : r.Named := by
  rcases unsignedQuotient_cases run with ⟨-, rfl⟩ | ⟨-, rfl⟩ | ⟨-, -, v, w, made⟩ | rfl
  · exact named_uncomputable
  · exact lhs
  · exact named_ofInt made
  · exact named_quotient.mpr ⟨lhs, rhs⟩

private theorem named_convert {kind : CastKind} {bits : Int} (named : e.Named)
    (run : convert kind bits e = .ok r) : r.Named :=
  convert_induction named (fun _ _ _ _ _ made => named_ofInt made) (fun _ _ => named_cast.mp)
    (fun _ named _ _ _ => named_cast.mpr named) run

/-- No constructor brings in a symbol. -/
theorem hereditary_named (iw : Int) : Hereditary iw Named where
  const _ _ := named_const
  below := Named.operands
  sum some typed named run := by
    obtain ⟨r, run', same⟩ := sumOf_spec iw some typed
    cases run.symm.trans run'
    exact (same.proper (fun e he => ⟨typed e he, named e he⟩) _ (List.mem_singleton_self _)).named
  product some typed named run := by
    obtain ⟨r, run', same⟩ := productOf_spec iw some typed
    cases run.symm.trans run'
    exact (same.proper (fun e he => ⟨typed e he, named e he⟩) _ (List.mem_singleton_self _)).named
  maximum _ _ named run := named_maximum named run
  quotient _ _ lhs rhs run := named_unsignedQuotient lhs rhs run
  cast _ _ named run := named_convert named run
  recurrence named start step := recur_induction _ named_uncomputable (fun _ => start) fun _ =>
    named_recurrence.mpr ⟨(named_recurrence.mp named).1, start, step⟩

end named

end ShapeRecovery.Expr
