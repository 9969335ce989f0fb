import ShapeRecovery.Proofs.Expr.Inherited

namespace ShapeRecovery.Expr

mutual

/-- No product in the expression, at any depth, has the constant zero for a factor. -/
def zeroFree : Expr → Bool
  | const .. | unknown .. | uncomputable => true
  | nary op ops => (op != .product || ops.all fun e => !e.isZero) && zeroFreeList ops
  | quotient lhs rhs => zeroFree lhs && zeroFree rhs
  | cast _ arg _ => zeroFree arg
  | recurrence start step _ => zeroFree start && zeroFree step

def zeroFreeList : List Expr → Bool
  | [] => true
  | e :: es => zeroFree e && zeroFreeList es

end

/-- No product in any of the expressions has the constant zero for a factor. -/
def ZeroFree (es : List Expr) : Prop := ∀ e ∈ es, e.zeroFree = true

namespace ZeroFree

variable {es fs : List Expr} {e : Expr}

@[simp] theorem nil : ZeroFree [] := by simp [ZeroFree]

@[simp] theorem cons : ZeroFree (e :: es) ↔ e.zeroFree = true ∧ ZeroFree es := by simp [ZeroFree]

@[simp] theorem append : ZeroFree (es ++ fs) ↔ ZeroFree es ∧ ZeroFree fs := by
  simp [ZeroFree, or_imp, forall_and]

theorem subset (free : ZeroFree fs) (sub : es ⊆ fs) : ZeroFree es := fun e he => free e (sub he)

end ZeroFree

section

variable {es : List Expr} {a b e : Expr} {l : Loop}

theorem zeroFreeList_iff : zeroFreeList es = true ↔ ZeroFree es := by
  induction es with
  | nil => simp [zeroFreeList]
  | cons e es ih => simp [zeroFreeList, ih]

@[simp] theorem zeroFree_sum : (nary .sum es).zeroFree = true ↔ ZeroFree es := by
  rw [zeroFree, Bool.and_eq_true, zeroFreeList_iff]
  simp

@[simp] theorem zeroFree_product :
    (nary .product es).zeroFree = true ↔ (∀ e ∈ es, e.isZero = false) ∧ ZeroFree es := by
  rw [zeroFree, Bool.and_eq_true, zeroFreeList_iff]
  simp

@[simp] theorem zeroFree_recurrence :
    (recurrence a b l).zeroFree = true ↔ a.zeroFree = true ∧ b.zeroFree = true := by
  rw [zeroFree, Bool.and_eq_true]

theorem zeroFree_operands (free : e.zeroFree = true) : ZeroFree e.operands := by
  cases e with
  | nary op es =>
    rw [zeroFree, Bool.and_eq_true, zeroFreeList_iff] at free
    exact free.2
  | quotient a b => simpa [zeroFree, operands] using free
  | cast k a b => simpa [zeroFree, operands] using free
  | recurrence a b l => simpa [operands] using free
  | _ => simp [operands]

theorem isZero_of_isConst (other : e.isConst = false) : e.isZero = false := by
  cases e with
  | const => simp [isConst] at other
  | _ => rfl

private theorem zeroFree_nary {op : Nary} (other : op ≠ .product) (parts : ZeroFree es) :
    (nary op es).zeroFree = true := by
  rw [zeroFree, Bool.and_eq_true, zeroFreeList_iff]
  exact ⟨by simp [other], parts⟩

theorem inherited_zeroFree : Inherited fun e => e.zeroFree = true where
  const _ _ := rfl
  uncomputable := rfl
  below := zeroFree_operands
  recur l start step := recur_induction (P := fun e => e.zeroFree = true) l rfl (fun _ => start)
    fun _ => zeroFree_recurrence.mpr ⟨start, step⟩
  sum := zeroFree_sum.mpr
  maximum _ _ :=
    handsOn_maximum (P := fun e => e.zeroFree = true) (fun _ _ => rfl) rfl zeroFree_operands zeroFree_nary
  quotient first second := by
    rw [zeroFree, Bool.and_eq_true]
    exact ⟨first, second⟩
  cast here := here
  otherFactors := by
    intro v w es _ free
    obtain ⟨nonzero, parts⟩ := zeroFree_product.mp free
    exact zeroFree_product.mpr ⟨fun f hf => nonzero f (by simp [hf]), fun f hf => parts f (by simp [hf])⟩
  product := by
    intro es head r _ plain leading _ _ _ run
    have factors : ∀ e ∈ head ++ plainFactors es, e.isZero = false ∧ e.zeroFree = true := by
      refine List.forall_mem_append.mpr ⟨?_, fun e he => ?_⟩
      · rcases leading with rfl | ⟨c, w, nonzero, -, rfl⟩
        · simp
        · simpa [isZero, zeroFree] using nonzero
      · exact ⟨isZero_of_isConst (isConst_of_plainFactors he), plain e he⟩
    rcases arranged_of_ordered run with single | ⟨-, fs, perm, rfl⟩
    · exact (factors r (by simp [single])).2
    · refine zeroFree_product.mpr ⟨fun e he => ?_, fun e he => ?_⟩
      · exact (factors e (perm.mem_iff.mp he)).1
      · exact (factors e (perm.mem_iff.mp he)).2

/-- No constructor brings in a factor zero. -/
theorem hereditary_zeroFree (iw : Int) : Hereditary iw fun e => e.zeroFree = true :=
  inherited_zeroFree.hereditary iw

end

end ShapeRecovery.Expr
