import ShapeRecovery.Proofs.Expr.KeyOrder
import ShapeRecovery.Proofs.Expr.WrittenForm

namespace ShapeRecovery.Expr

namespace OrderKey

theorem lt_iff {a b : OrderKey} : a.lt b = true ↔ a.rank < b.rank ∨
    (a.rank = b.rank ∧ (a.text < b.text ∨ (a.text = b.text ∧ a.repr < b.repr))) := by
  simp [OrderKey.lt]

/-- One of two different keys comes first. -/
theorem eq_of_not_lt {a b : OrderKey} (h : a.lt b = false) (h' : b.lt a = false) : a = b := by
  rw [Bool.eq_false_iff, ne_eq, lt_iff] at h h'
  have rank : a.rank = b.rank := by omega
  have text : a.text = b.text := by
    apply String.le_antisymm
    · exact String.not_lt.mp fun less => h' (.inr ⟨rank.symm, .inl less⟩)
    · exact String.not_lt.mp fun less => h (.inr ⟨rank, .inl less⟩)
  have repr : a.repr = b.repr := by
    apply String.le_antisymm
    · exact String.not_lt.mp fun less => h' (.inr ⟨rank.symm, .inr ⟨text.symm, less⟩⟩)
    · exact String.not_lt.mp fun less => h (.inr ⟨rank, .inr ⟨text, less⟩⟩)
  cases a
  cases b
  cases rank
  cases text
  cases repr
  rfl

theorem lt_trans {a b c : OrderKey} (h : a.lt b = true) (h' : b.lt c = true) : a.lt c = true := by
  rw [lt_iff] at h h' ⊢
  rcases h with rank | ⟨rank, rest⟩
  · left
    omega
  · rcases h' with rank' | ⟨rank', rest'⟩
    · left
      omega
    · refine .inr ⟨rank.trans rank', ?_⟩
      rcases rest with text | ⟨text, repr⟩
      · rcases rest' with text' | ⟨text', -⟩
        · exact .inl (String.lt_trans text text')
        · exact .inl (text' ▸ text)
      · rcases rest' with text' | ⟨text', repr'⟩
        · exact .inl (text ▸ text')
        · exact .inr ⟨text.trans text', String.lt_trans repr repr'⟩

/-- Keys that do not fall twice do not fall on the whole. -/
theorem not_lt_trans {a b c : OrderKey} (h : b.lt a = false) (h' : c.lt b = false) :
    c.lt a = false := by
  by_contra less
  have less : c.lt a = true := by simpa using less
  cases first : a.lt b with
  | true => simp [lt_trans less first] at h'
  | false => simp [eq_of_not_lt first h, h'] at less

end OrderKey

variable {es fs : List Expr} {a b c : Expr} {op : Nary} {w : Int}

/-- Expressions with valid names that have one key are one expression. -/
theorem eq_of_orderKey {k : OrderKey} (named : a.Named) (named' : b.Named)
    (key : orderKey a = .ok k) (key' : orderKey b = .ok k) : a = b := by
  obtain ⟨t, -, made⟩ := bind_eq_ok.mp key
  obtain ⟨t', -, made'⟩ := bind_eq_ok.mp key'
  cases made
  have repr : b.repr = a.repr := congrArg OrderKey.repr (Except.ok.inj made')
  exact eq_of_repr named named' repr.symm

/-- The key of `a` is not above that of `b`. -/
def NotAbove (a b : Expr) : Prop :=
  ∃ k k', a.orderKey = .ok k ∧ b.orderKey = .ok k' ∧ k'.lt k = false

theorem NotAbove.trans (h : NotAbove a b) (h' : NotAbove b c) : NotAbove a c := by
  obtain ⟨k, k₁, hk, hk₁, less⟩ := h
  obtain ⟨k₂, k₃, hk₂, hk₃, less'⟩ := h'
  cases hk₁.symm.trans hk₂
  exact ⟨k, k₃, hk, hk₃, OrderKey.not_lt_trans less less'⟩

theorem NotAbove.antisymm (h : NotAbove a b) (h' : NotAbove b a) (named : a.Named)
    (named' : b.Named) : a = b := by
  obtain ⟨k, k', hk, hk', less⟩ := h
  obtain ⟨k₁, k₂, hk₁, hk₂, less'⟩ := h'
  cases hk.symm.trans hk₂
  cases hk'.symm.trans hk₁
  cases OrderKey.eq_of_not_lt less' less
  exact eq_of_orderKey named named' hk hk'

theorem NotAbove.rank_le (h : NotAbove a b) : a.rank ≤ b.rank := by
  obtain ⟨k, k', hk, hk', notLess⟩ := h
  rw [← rank_of_orderKey hk, ← rank_of_orderKey hk']
  simp only [OrderKey.lt, Bool.or_eq_false_iff, decide_eq_false_iff_not] at notLess
  omega

/-- In a list in order every operand has a key not above those after it. -/
theorem KeysRise.pairwise (rise : KeysRise es) : es.Pairwise NotAbove := by
  have chain (es : List Expr) (rise : KeysRise es) : es.IsChain NotAbove := by
    induction es with
    | nil => exact List.isChain_nil
    | cons e es ih =>
      cases es with
      | nil => exact List.isChain_singleton _
      | cons f es => exact List.isChain_cons_cons.mpr ⟨rise.1, ih rise.2⟩
  have trans : IsTrans Expr NotAbove := ⟨fun _ _ _ => NotAbove.trans⟩
  exact List.isChain_iff_pairwise.mp (chain es rise)

/-- Operands are in order in one way only. -/
theorem KeysRise.unique (rise : KeysRise es) (rise' : KeysRise fs) (perm : es.Perm fs)
    (named : ∀ e ∈ es, e.Named) : es = fs := by
  refine perm.eq_of_pairwise (fun a b ha hb above above' => ?_) rise.pairwise rise'.pairwise
  exact above.antisymm above' (named a ha) (named b (perm.mem_iff.mpr hb))

/-- Sorting forgets in which order the operands were given. -/
private theorem sorted_congr (perm : es.Perm fs) (named : ∀ e ∈ es, e.Named)
    (texts : ∀ e ∈ es, ∃ t, e.text = .ok t) : sorted es = sorted fs := by
  obtain ⟨es', run, moved⟩ := sorted_perm texts
  obtain ⟨fs', run', moved'⟩ := sorted_perm fun f hf => texts f (perm.mem_iff.mpr hf)
  have same : es' = fs' := by
    refine (keysRise_of_sorted run).unique (keysRise_of_sorted run') ?_ fun e he => ?_
    · exact (moved.trans perm).trans moved'.symm
    · exact named e (moved.mem_iff.mp he)
  rw [run, run', same]

theorem ordered_congr (perm : es.Perm fs) (named : ∀ e ∈ es, e.Named)
    (texts : ∀ e ∈ es, ∃ t, e.text = .ok t) : ordered op es = ordered op fs := by
  rw [ordered, ordered, sorted_congr perm named texts]

end ShapeRecovery.Expr
