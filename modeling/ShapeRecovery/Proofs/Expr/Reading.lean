import Mathlib.Data.Int.ModEq
import ShapeRecovery.Expr.Maximum
import ShapeRecovery.Proofs.Expr.Value

namespace ShapeRecovery.Expr

variable {w : Int} {ρ ρ' : Valuation} {a b e : Expr}

/-- How operands of `w` bits compare under a maximum. -/
def readAs (signed : Bool) (w v : Int) : Int :=
  if signed then readSigned w v else readUnsigned w v

theorem readUnsigned_congr (same : value w ρ a = value w ρ' b) :
    readUnsigned w (a.meaning ρ) = readUnsigned w (b.meaning ρ') :=
  (ZMod.intCast_eq_intCast_iff _ _ _).mp same

theorem readSigned_congr (same : value w ρ a = value w ρ' b) :
    readSigned w (a.meaning ρ) = readSigned w (b.meaning ρ') := by
  have residue := readUnsigned_congr same
  simp only [readUnsigned] at residue
  rw [readSigned, readSigned, ← Int.emod_bmod, residue, Int.emod_bmod]

theorem readAs_congr (signed : Bool) (same : value w ρ a = value w ρ' b) :
    readAs signed w (a.meaning ρ) = readAs signed w (b.meaning ρ') := by
  cases signed with
  | false => exact readUnsigned_congr same
  | true => exact readSigned_congr same

/-- A reading stands for the word that is read. -/
@[simp] theorem cast_readAs (signed : Bool) (w v : Int) :
    ((readAs signed w v : Int) : ZMod (Word.modulus w)) = v := by
  cases signed <;> simp [readAs, readSigned, readUnsigned]

@[simp] theorem readAs_readAs (signed : Bool) (w v : Int) :
    readAs signed w (readAs signed w v) = readAs signed w v := by
  cases signed <;> simp [readAs, readSigned, readUnsigned]

theorem readAs_bmod (signed : Bool) (w v : Int) :
    readAs signed w (v.bmod (Word.modulus w)) = readAs signed w v := by
  cases signed <;> simp [readAs, readSigned, readUnsigned]

theorem HasBits.bits (typed : HasBits e w) : e.bits = w := by
  simp [Expr.bits, typed.width]

section greatest

variable {us vs : List Int}

theorem le_foldl_max (v : Int) (vs : List Int) :
    vs.foldl max v ∈ v :: vs ∧ ∀ u ∈ v :: vs, u ≤ vs.foldl max v := by
  induction vs generalizing v with
  | nil => simp
  | cons u vs ih =>
    obtain ⟨among, above⟩ := ih (max v u)
    refine ⟨?_, fun t ht => ?_⟩
    · rcases List.mem_cons.mp among with first | rest
      · rw [List.foldl_cons, first]
        rcases max_choice v u with h | h <;> simp [h]
      · exact List.mem_cons_of_mem _ (List.mem_cons_of_mem _ rest)
    · have start := above (max v u) (by simp)
      rw [List.foldl_cons]
      rcases List.mem_cons.mp ht with rfl | ht
      · exact (le_max_left _ _).trans start
      · rcases List.mem_cons.mp ht with rfl | ht
        · exact (le_max_right _ _).trans start
        · exact above t (List.mem_cons_of_mem _ ht)

theorem greatestOf_mem (some : vs ≠ []) : greatestOf vs ∈ vs := by
  cases vs with
  | nil => exact absurd rfl some
  | cons v vs => exact (le_foldl_max v vs).1

theorem le_greatestOf {v : Int} (mem : v ∈ vs) : v ≤ greatestOf vs := by
  cases vs with
  | nil => simp at mem
  | cons u vs => exact (le_foldl_max u vs).2 v mem

/-- Two lists reach equally far up. -/
def Level (us vs : List Int) : Prop := ∀ n, (∃ u ∈ us, n ≤ u) ↔ ∃ v ∈ vs, n ≤ v

namespace Level

theorem of_mem_iff (same : ∀ n, n ∈ us ↔ n ∈ vs) : Level us vs := by
  simp only [Level, same, implies_true]

theorem symm (level : Level us vs) : Level vs us := fun n => (level n).symm

theorem append {us' vs' : List Int} (left : Level us vs) (right : Level us' vs') :
    Level (us ++ us') (vs ++ vs') := by
  simp only [Level, List.mem_append, or_and_right, exists_or] at left right ⊢
  exact fun n => or_congr (left n) (right n)

theorem greatest (some : vs ≠ []) : Level [greatestOf vs] vs := by
  intro n
  simp only [List.mem_singleton, exists_eq_left]
  exact ⟨fun h => ⟨_, greatestOf_mem some, h⟩, fun ⟨v, hv, le⟩ => le.trans (le_greatestOf hv)⟩

theorem greatestOf_le (level : Level us vs) (some : us ≠ []) : greatestOf us ≤ greatestOf vs := by
  obtain ⟨v, hv, le⟩ := (level _).mp ⟨_, greatestOf_mem some, le_rfl⟩
  exact le.trans (le_greatestOf hv)

theorem greatestOf_eq (level : Level us vs) (some : us ≠ []) : greatestOf us = greatestOf vs := by
  have some' : vs ≠ [] := by
    obtain ⟨v, hv, -⟩ := (level _).mp ⟨_, greatestOf_mem some, le_rfl⟩
    exact List.ne_nil_of_mem hv
  exact le_antisymm (level.greatestOf_le some) (level.symm.greatestOf_le some')

end Level

end greatest

/-- The maximum of operands of `w` bits is the greatest of their readings. -/
theorem meaning_maximum (signed : Bool) (ρ : Valuation) {es : List Expr} (typed : AllBits es w)
    (some : es ≠ []) :
    (nary (if signed then .signedMax else .unsignedMax) es).meaning ρ =
      greatestOf (es.map fun e => readAs signed w (e.meaning ρ)) := by
  have width (op : Nary) : (nary op es).bits = w := by
    cases es with
    | nil => exact absurd rfl some
    | cons e es => simpa [Expr.bits, Expr.width] using (typed e (by simp)).bits
  cases signed <;>
    simp [meaning, width, meanings_eq_map, readAs, Function.comp_def]

/-- What a maximum is read as is the greatest of the readings of its operands. -/
theorem readAs_maximum (signed : Bool) (ρ : Valuation) {es : List Expr} (typed : AllBits es w)
    (some : es ≠ []) :
    readAs signed w ((nary (if signed then .signedMax else .unsignedMax) es).meaning ρ) =
      greatestOf (es.map fun e => readAs signed w (e.meaning ρ)) := by
  have among : greatestOf (es.map fun e => readAs signed w (e.meaning ρ)) ∈
      es.map fun e => readAs signed w (e.meaning ρ) := greatestOf_mem (by simpa)
  obtain ⟨e, -, he⟩ := List.mem_map.mp among
  rw [meaning_maximum signed ρ typed some, ← he, readAs_readAs]

end ShapeRecovery.Expr
