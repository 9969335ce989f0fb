import Mathlib.Data.Set.Operations
import Mathlib.Order.Defs.Unbundled
import ShapeRecovery.Proofs.Expr.UniqueOrder

namespace ShapeRecovery.Expr

variable {a b c e : Expr} {es fs : List Expr}

theorem exists_orderKey_iff : (∃ k, orderKey e = .ok k) ↔ ∃ t, e.text = .ok t := by
  constructor
  · intro ⟨k, key⟩
    obtain ⟨t, text, -⟩ := bind_eq_ok.mp key
    exact ⟨t, text⟩
  · intro ⟨t, text⟩
    exact ⟨⟨e.rank, t, e.repr⟩, by simp [orderKey, text]⟩

/-- An expression that the order can place: its names are valid and it has a readable form. -/
structure Legible (e : Expr) : Prop where
  named : e.Named
  text : ∃ t, e.text = .ok t

theorem Legible.key (legible : Legible e) : ∃ k, orderKey e = .ok k :=
  exists_orderKey_iff.mpr legible.text

/-- The key of `a` is below that of `b`. -/
def Before (a b : Expr) : Prop :=
  ∃ k k', a.orderKey = .ok k ∧ b.orderKey = .ok k' ∧ k.lt k' = true

theorem Before.irrefl (a : Expr) : ¬ Before a a := by
  intro ⟨k, k', key, key', less⟩
  cases key.symm.trans key'
  have notLess := OrderKey.lt_asymm less
  rw [less] at notLess
  cases notLess

theorem Before.trans (h : Before a b) (h' : Before b c) : Before a c := by
  obtain ⟨k, k₁, key, key₁, less⟩ := h
  obtain ⟨k₂, k', key₂, key', less'⟩ := h'
  cases key₁.symm.trans key₂
  exact ⟨k, k', key, key', OrderKey.lt_trans less less'⟩

theorem Before.not_before (h : Before a b) : ¬ Before b a := by
  intro h'
  exact Before.irrefl a (h.trans h')

theorem not_lt_of_not_before {k k' : OrderKey} (h : ¬ Before a b) (key : orderKey a = .ok k)
    (key' : orderKey b = .ok k') : k.lt k' = false := by
  apply Bool.eq_false_iff.mpr
  intro less
  exact h ⟨k, k', key, key', less⟩

/-- Of two expressions neither of which comes first, the keys are equal, and so are the expressions. -/
theorem eq_of_not_before (ha : Legible a) (hb : Legible b) (h : ¬ Before a b) (h' : ¬ Before b a) :
    a = b := by
  obtain ⟨k, key⟩ := ha.key
  obtain ⟨k', key'⟩ := hb.key
  have same : k = k' :=
    OrderKey.eq_of_not_lt (not_lt_of_not_before h key key') (not_lt_of_not_before h' key' key)
  rw [← same] at key'
  exact eq_of_orderKey ha.named hb.named key key'

/-- Two symbols of one name are read alike; written with their numbers, the first difference of the
digits decides. -/
example : Before (unknown ⟨"x", 10⟩ 8) (unknown ⟨"x", 2⟩ 8) := ⟨_, _, rfl, rfl, by decide +kernel⟩

instance : IsStrictTotalOrder {e // Legible e} (fun a b => Before a b) where
  trichotomous a b h h' := Subtype.ext (eq_of_not_before a.2 b.2 h h')
  irrefl a := Before.irrefl a
  trans _ _ _ := Before.trans

theorem NotAbove.not_before (above : NotAbove a b) : ¬ Before b a := by
  intro ⟨k, k', key, key', less⟩
  obtain ⟨k₁, k₂, key₁, key₂, notLess⟩ := above
  cases key.symm.trans key₂
  cases key'.symm.trans key₁
  rw [less] at notLess
  cases notLess

theorem NotAbove.before (above : NotAbove a b) (ha : Legible a) (hb : Legible b) (other : a ≠ b) :
    Before a b := by
  by_contra h
  apply other
  exact eq_of_not_before ha hb h above.not_before

/-- Sorting distinct operands puts each before those that follow. -/
theorem before_of_sorted (distinct : es.Nodup) (legible : ∀ e ∈ es, Legible e)
    (run : sorted es = .ok fs) : fs.Pairwise Before := by
  have perm := perm_of_sorted run
  have apart : fs.Pairwise (· ≠ ·) := perm.nodup_iff.mpr distinct
  apply ((keysRise_of_sorted run).pairwise.and apart).imp_of_mem
  intro a b ha hb ⟨above, other⟩
  exact above.before (legible a (perm.mem_iff.mp ha)) (legible b (perm.mem_iff.mp hb)) other

/-- The operands in order are what sorting them gives, whichever way they were found. -/
theorem sorted_iff (distinct : es.Nodup) (legible : ∀ e ∈ es, Legible e) :
    sorted es = .ok fs ↔ fs.Perm es ∧ fs.Pairwise Before := by
  constructor
  · intro run
    exact ⟨perm_of_sorted run, before_of_sorted distinct legible run⟩
  · intro ⟨perm, order⟩
    obtain ⟨gs, run, perm'⟩ := sorted_perm fun e mem => (legible e mem).text
    have order' := before_of_sorted distinct legible run
    have same : gs = fs := by
      apply (perm'.trans perm.symm).eq_of_pairwise _ order' order
      intro a b _ _ h h'
      exact absurd h' h.not_before
    rw [run, same]

/-- Expressions with valid names are told apart by their complete form, and by their key where the
readable form exists that the key needs. The order of the keys is a strict total one, and distinct
operands are sorted along it. -/
theorem order_separates :
    Set.InjOn Expr.repr {e | e.Named} ∧
      (∀ e, (∃ k, orderKey e = .ok k) ↔ ∃ t, e.text = .ok t) ∧
      Set.InjOn orderKey {e | Legible e} ∧
      IsStrictTotalOrder {e // Legible e} (fun a b => Before a b) ∧
      ∀ es fs : List Expr, es.Nodup → (∀ e ∈ es, Legible e) →
        (sorted es = .ok fs ↔ fs.Perm es ∧ fs.Pairwise Before) := by
  refine ⟨?_, ?_, ?_, inferInstance, ?_⟩
  · intro a named b named' same
    exact eq_of_repr named named' same
  · intro e
    exact exists_orderKey_iff
  · intro a ha b hb same
    obtain ⟨k, key⟩ := ha.key
    exact eq_of_orderKey ha.named hb.named key (same ▸ key)
  · intro es fs distinct legible
    exact sorted_iff distinct legible

end ShapeRecovery.Expr
