import ShapeRecovery.Proofs.Expr.Degree

namespace ShapeRecovery.Expr

mutual

/-- How many recurrences of a product start somewhere, that is not at zero. A step of a recurrence that starts
at zero stands in its place. -/
def startCount : Expr → Nat
  | recurrence start step _ => if start.isZero then startCount step else 1
  | nary .product es => (startCounts es).sum
  | _ => 0

def startCounts : List Expr → List Nat
  | [] => []
  | e :: es => startCount e :: startCounts es

end

mutual

/-- Products are opened, and at most one of the recurrences in each starts somewhere. -/
def singleStart : Expr → Bool
  | nary .sum es => singleStarts es
  | nary .product es => es.all (fun e => e.naryOp? != some .product) &&
      decide ((startCounts es).sum ≤ 1) && singleStarts es
  | recurrence start step _ => singleStart start && singleStart step
  | _ => true

def singleStarts : List Expr → Bool
  | [] => true
  | e :: es => singleStart e && singleStarts es

end

variable {e r a b : Expr} {es : List Expr} {l : Loop}

theorem startCounts_eq_map (es : List Expr) : startCounts es = es.map startCount := by
  induction es with
  | nil => rfl
  | cons e es ih => rw [startCounts, ih, List.map_cons]

theorem startCount_product : startCount (product es) = (es.map startCount).sum := by
  rw [startCount, startCounts_eq_map]

theorem startCount_of_isConst (constant : e.isConst = true) : startCount e = 0 := by
  cases e with
  | const => rfl
  | _ => cases constant

theorem singleStarts_iff : singleStarts es = true ↔ ∀ e ∈ es, e.singleStart = true := by
  induction es with
  | nil => simp [singleStarts]
  | cons e es ih => simp [singleStarts, ih]

@[simp] theorem singleStart_sum : (sum es).singleStart = true ↔ ∀ e ∈ es, e.singleStart = true :=
  singleStarts_iff

@[simp] theorem singleStart_product : (product es).singleStart = true ↔
    ((∀ e ∈ es, e.naryOp? ≠ some .product) ∧ (es.map startCount).sum ≤ 1) ∧
      ∀ e ∈ es, e.singleStart = true := by
  simp [singleStart, singleStarts_iff, startCounts_eq_map]

@[simp] theorem singleStart_recurrence :
    (recurrence a b l).singleStart = true ↔ a.singleStart = true ∧ b.singleStart = true := by
  simp [singleStart]

theorem startCount_le_one : ∀ e, e.singleStart = true → startCount e ≤ 1
  | recurrence start step l, single => by
    unfold startCount
    split
    · exact startCount_le_one step (singleStart_recurrence.mp single).2
    · exact le_rfl
  | nary .product es, single => by
    rw [startCount_product]
    exact (singleStart_product.mp single).1.2
  | const .., _ | unknown .., _ | quotient .., _ | cast .., _ | uncomputable, _ | nary .sum _, _
  | nary .signedMax _, _ | nary .unsignedMax _, _ => Nat.zero_le _

/-- Neither part of a recurrence counts for more than the recurrence. -/
theorem startCount_parts (single : (recurrence a b l).singleStart = true) :
    startCount a ≤ startCount (recurrence a b l) ∧ startCount b ≤ startCount (recurrence a b l) := by
  obtain ⟨start, step⟩ := singleStart_recurrence.mp single
  rw [startCount]
  split
  · next nought =>
    have none : startCount a = 0 := startCount_of_isConst (by cases a <;> simp_all [isZero, isConst])
    exact ⟨by omega, le_rfl⟩
  · exact ⟨startCount_le_one a start, startCount_le_one b step⟩

/-- A recurrence that starts at zero leaves nothing to search in its start. -/
def hasStart : Expr → Bool
  | recurrence start _ _ => !start.isZero
  | _ => false

/-- Factors whose product has one start at most. -/
def FewStarts (es : List Expr) : Prop :=
  (∀ e ∈ es, e.singleStart = true) ∧ (es.map startCount).sum ≤ 1

theorem FewStarts.opened (few : FewStarts es) :
    ∀ e ∈ plainFactors es, e.singleStart = true ∧ e.naryOp? ≠ some .product := by
  intro e he
  rcases mem_flatten (List.mem_of_mem_filter he) with ⟨mem, other⟩ | ⟨fs, mem, part⟩
  · exact ⟨few.1 e mem, other⟩
  · obtain ⟨⟨other, -⟩, inside⟩ := singleStart_product.mp (few.1 _ mem)
    exact ⟨inside e part, other e part⟩

theorem LeadingFactor.singleStart {head : List Expr} (leading : LeadingFactor head) :
    ∀ e ∈ head, e.singleStart = true ∧ e.naryOp? ≠ some .product := by
  rcases leading with rfl | ⟨c, w, -, -, rfl⟩
  · simp
  · simp [Expr.singleStart, naryOp?]

/-- Sums keep the starts of products apart, and a product of few starts has few of them. -/
theorem graded_singleStart : Graded (fun e => e.singleStart = true) FewStarts where
  const _ _ := rfl
  uncomputable := rfl
  sum := singleStart_sum
  parts := singleStart_recurrence.mp
  recur l start step := recur_induction (P := fun e => e.singleStart = true) l rfl (fun _ => start)
    fun _ => singleStart_recurrence.mpr ⟨start, step⟩
  multiple {e c f} here run := by
    have base : f.singleStart = true := by
      rcases asMultiple_cases run with ⟨w, rfl⟩ | ⟨w, fs, -, rfl, rfl⟩ | ⟨-, -, rfl⟩
      · exact (singleStart_product.mp here).2 f (by simp)
      · obtain ⟨⟨other, few⟩, inside⟩ := singleStart_product.mp here
        refine singleStart_product.mpr ⟨⟨fun g hg => other g (by simp [hg]), ?_⟩, fun g hg => ?_⟩
        · simpa [startCount] using few
        · exact inside g (by simp [hg])
      · exact here
    refine ⟨base, fun u w => ⟨by simpa [singleStart] using base, ?_⟩⟩
    simpa [startCount] using startCount_le_one f base
  opened few leading := by
    refine ⟨List.forall_mem_append.mpr ⟨fun e he => (leading.singleStart e he).1, fun e he =>
      (few.opened e he).1⟩, ?_⟩
    exact (sum_map_opened (fun _ _ => rfl) (fun _ => startCount_product.ge) leading _).trans few.2
  scaled {es a c l} few scaled := by
    have perm := scalable_spec scaled
    have moving : (Expr.recurrence a c l).singleStart = true := few.1 _ (perm.subset (by simp))
    obtain ⟨start, step⟩ := singleStart_recurrence.mp moving
    have parts := startCount_parts moving
    have part (f : Expr) (single : f.singleStart = true)
        (low : startCount f ≤ startCount (.recurrence a c l)) :
        FewStarts ((es.filter fun f => !f.isRecurrence) ++ [f]) := by
      refine ⟨List.forall_mem_append.mpr ⟨fun e he => few.1 e (List.mem_of_mem_filter he), ?_⟩, ?_⟩
      · simpa using single
      · exact (sum_map_scaled scaled low).trans few.2
    exact ⟨part a start parts.1, part c step parts.2⟩
  spread {k ts} constant few e he := by
    have inside : e.singleStart = true := singleStart_sum.mp (few.1 (Expr.sum ts) (by simp)) e he
    refine ⟨by simpa using ⟨few.1 k (by simp), inside⟩, ?_⟩
    simpa [startCount_of_isConst constant] using startCount_le_one e inside
  product {es head r} few leading _ _ _ run := by
    have factors : ∀ e ∈ head ++ plainFactors es, e.singleStart = true ∧ e.naryOp? ≠ some .product :=
      List.forall_mem_append.mpr ⟨leading.singleStart, few.opened⟩
    have low := (sum_map_opened (fun _ _ => rfl) (fun _ => startCount_product.ge) leading es).trans few.2
    rcases arranged_of_ordered run with single | ⟨-, fs, perm, rfl⟩
    · exact (factors r (by simp [single])).1
    · refine singleStart_product.mpr ⟨⟨fun e he => ?_, ?_⟩, fun e he => ?_⟩
      · exact (factors e (perm.mem_iff.mp he)).2
      · rwa [(perm.map startCount).sum_eq]
      · exact (factors e (perm.mem_iff.mp he)).1

end ShapeRecovery.Expr
