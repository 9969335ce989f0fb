import ShapeRecovery.Proofs.Expr.Sum

namespace ShapeRecovery

namespace Symbol

theorem lt_iff {s t : Symbol} : s.lt t = true ↔ s.name < t.name ∨ (s.name = t.name ∧ s.id < t.id) := by
  simp [Symbol.lt]

theorem eq_of_not_lt {s t : Symbol} (h : s.lt t = false) (h' : t.lt s = false) : s = t := by
  rw [Bool.eq_false_iff, ne_eq, lt_iff] at h h'
  have name : s.name = t.name := by
    apply String.le_antisymm
    · exact String.not_lt.mp fun less => h' (.inl less)
    · exact String.not_lt.mp fun less => h (.inl less)
  have id : s.id = t.id := by
    have notLess : ¬ s.id < t.id := fun less => h (.inr ⟨name, less⟩)
    have notMore : ¬ t.id < s.id := fun less => h' (.inr ⟨name.symm, less⟩)
    omega
  cases s
  cases t
  rw [Symbol.mk.injEq]
  exact ⟨name, id⟩

theorem lt_trans {s t u : Symbol} (h : s.lt t = true) (h' : t.lt u = true) : s.lt u = true := by
  rw [lt_iff] at h h' ⊢
  rcases h with name | ⟨name, id⟩
  · rcases h' with name' | ⟨name', -⟩
    · exact .inl (String.lt_trans name name')
    · exact .inl (name' ▸ name)
  · rcases h' with name' | ⟨name', id'⟩
    · exact .inl (name ▸ name')
    · exact .inr ⟨name.trans name', id.trans id'⟩

end Symbol

namespace Loop

theorem lt_iff {l m : Loop} :
    l.lt m = true ↔ l.depth < m.depth ∨ (l.depth = m.depth ∧ l.name.lt m.name = true) := by
  simp [Loop.lt]

theorem lt_irrefl (l : Loop) : l.lt l = false := by
  rw [Bool.eq_false_iff, ne_eq, lt_iff]
  simp [Symbol.lt]

/-- One of two loops comes first. -/
theorem eq_of_not_lt {l m : Loop} (h : l.lt m = false) (h' : m.lt l = false) : l = m := by
  rw [Bool.eq_false_iff, ne_eq, lt_iff] at h h'
  have depth : l.depth = m.depth := by omega
  have name : l.name = m.name := by
    apply Symbol.eq_of_not_lt
    · exact Bool.eq_false_iff.mpr fun less => h (.inr ⟨depth, less⟩)
    · exact Bool.eq_false_iff.mpr fun less => h' (.inr ⟨depth.symm, less⟩)
  cases l
  cases m
  rw [Loop.mk.injEq]
  exact ⟨name, depth⟩

theorem lt_trans {l m k : Loop} (h : l.lt m = true) (h' : m.lt k = true) : l.lt k = true := by
  rw [lt_iff] at h h' ⊢
  rcases h with depth | ⟨depth, name⟩
  · left
    omega
  · rcases h' with depth' | ⟨depth', name'⟩
    · left
      omega
    · exact .inr ⟨depth.trans depth', Symbol.lt_trans name name'⟩

theorem not_lt_trans {l m k : Loop} (h : l.lt m = false) (h' : m.lt k = false) : l.lt k = false := by
  by_contra less
  have less : l.lt k = true := by simpa using less
  cases other : k.lt m with
  | true => simp [lt_trans less other] at h
  | false => simp [← eq_of_not_lt h' other, h] at less

end Loop

namespace Expr

/-- No loop is further inside than the innermost one. -/
theorem innermost_greatest (l : Loop) (ms : List Loop) :
    ∀ m ∈ l :: ms, (innermost l ms).lt m = false := by
  induction ms generalizing l with
  | nil =>
    intro m hm
    obtain rfl := List.mem_singleton.mp hm
    exact Loop.lt_irrefl m
  | cons k ms ih =>
    obtain ⟨here, others⟩ := List.forall_mem_cons.mp (ih (if l.lt k then k else l))
    simp only [innermost]
    generalize innermost (if l.lt k then k else l) ms = inner at here others
    have both : inner.lt l = false ∧ inner.lt k = false := by
      cases less : l.lt k with
      | true =>
        simp only [less, if_true] at here
        refine ⟨?_, here⟩
        by_contra other
        simp [Loop.lt_trans (by simpa using other) less] at here
      | false =>
        simp only [less, Bool.false_eq_true, if_false] at here
        exact ⟨here, Loop.not_lt_trans here less⟩
    exact List.forall_mem_cons.mpr ⟨both.1, List.forall_mem_cons.mpr ⟨both.2, others⟩⟩

theorem innermost_perm {l m : Loop} {ls ms : List Loop} (perm : (l :: ls).Perm (m :: ms)) :
    innermost l ls = innermost m ms := by
  apply Loop.eq_of_not_lt
  · exact innermost_greatest l ls _ (perm.mem_iff.mpr (innermost_mem m ms))
  · exact innermost_greatest m ms _ (perm.mem_iff.mp (innermost_mem l ls))

end Expr

end ShapeRecovery
