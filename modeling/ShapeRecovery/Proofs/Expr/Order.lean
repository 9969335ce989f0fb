import ShapeRecovery.Proofs.Expr.Operands

namespace ShapeRecovery.Expr

theorem textList_eq_mapM (es : List Expr) : textList es = es.mapM text := by
  induction es with
  | nil => rfl
  | cons e es ih => simp only [textList, ih, List.mapM_cons]

/-- A well-formed expression has a readable form. -/
theorem HasBits.text {e : Expr} {w : Int} (h : HasBits e w) : ∃ t, e.text = .ok t := by
  have ofCast {k : CastKind} {a : Expr} {v b : Int} (arg : HasBits a v)
      (ih : ∃ t, a.text = .ok t) : ∃ t, (Expr.cast k a b).text = .ok t := by
    obtain ⟨t, ht⟩ := ih
    exact ⟨_, by simp only [Expr.text, arg.width, ht, ok_bind]; rfl⟩
  induction h with
  | const _ _ => exact ⟨_, rfl⟩
  | unknown _ => exact ⟨_, rfl⟩
  | nary _ _ ih =>
    obtain ⟨ts, hts⟩ := mapM_total ih
    exact ⟨_, by simp only [Expr.text, textList_eq_mapM, hts, ok_bind]; rfl⟩
  | quotient _ _ iha ihb =>
    obtain ⟨a, ha⟩ := iha
    obtain ⟨b, hb⟩ := ihb
    exact ⟨_, by simp only [Expr.text, ha, hb, ok_bind]; rfl⟩
  | narrow _ _ arg ih => exact ofCast arg ih
  | signExtend _ arg ih => exact ofCast arg ih
  | zeroExtend _ arg ih => exact ofCast arg ih
  | recurrence _ _ iha ihb =>
    obtain ⟨a, ha⟩ := iha
    obtain ⟨b, hb⟩ := ihb
    exact ⟨_, by simp only [Expr.text, ha, hb, ok_bind]; rfl⟩

theorem AllBits.texts {es : List Expr} {w : Int} (typed : AllBits es w) :
    ∀ e ∈ es, ∃ t, e.text = .ok t :=
  fun e he => (typed e he).text

private theorem insertByKey_perm (k : OrderKey) (e : Expr) (rest : List (OrderKey × Expr)) :
    (insertByKey k e rest).Perm ((k, e) :: rest) := by
  induction rest with
  | nil => exact List.Perm.refl _
  | cons p rest ih =>
    obtain ⟨k', e'⟩ := p
    unfold insertByKey
    split
    · exact (ih.cons _).trans (List.Perm.swap _ _ _)
    · exact List.Perm.refl _

theorem foldr_insertByKey_perm (keyed : List (OrderKey × Expr)) :
    (keyed.foldr (fun p acc => insertByKey p.1 p.2 acc) []).Perm keyed := by
  induction keyed with
  | nil => exact List.Perm.refl _
  | cons p keyed ih => exact (insertByKey_perm _ _ _).trans (ih.cons _)

/-- The keys of operands with texts, each beside its operand. -/
theorem keyed_ok {es : List Expr} (texts : ∀ e ∈ es, ∃ t, e.text = .ok t) :
    ∃ keyed : List (OrderKey × Expr),
      (es.mapM fun e => do
        let k ← orderKey e
        return (k, e)) = .ok keyed ∧ keyed.map Prod.snd = es := by
  induction es with
  | nil => exact ⟨[], rfl, rfl⟩
  | cons e es ih =>
    obtain ⟨t, ht⟩ := texts e (by simp)
    obtain ⟨keyed, hk, hs⟩ := ih fun f hf => texts f (by simp [hf])
    have key : orderKey e = .ok ⟨e.rank, t, e.repr⟩ := by simp [orderKey, ht]
    refine ⟨(⟨e.rank, t, e.repr⟩, e) :: keyed, ?_, by simp [hs]⟩
    simp only [List.mapM_cons, key, ok_bind, hk]
    rfl

/-- Each operand stands beside its key. -/
theorem keyed_run {es : List Expr} {keyed : List (OrderKey × Expr)}
    (run : (es.mapM fun e => do
      let k ← orderKey e
      return (k, e)) = .ok keyed) :
    List.Forall₂ (fun e p => orderKey e = .ok p.1 ∧ p.2 = e) es keyed := by
  refine (mapM_eq_ok_iff.mp run).imp fun e p here => ?_
  obtain ⟨k, hk, pair⟩ := bind_eq_ok.mp here
  cases pair
  exact ⟨hk, rfl⟩

/-- Whatever sorting ends in are the operands in another order. -/
theorem perm_of_sorted {es fs : List Expr} (run : sorted es = .ok fs) : fs.Perm es := by
  obtain ⟨keyed, hkeyed, made⟩ := bind_eq_ok.mp run
  have operands : keyed.map Prod.snd = es := by
    have each := keyed_run hkeyed
    clear run hkeyed made
    induction each with
    | nil => rfl
    | cons here _ ih => rw [List.map_cons, ih, here.2]
  injection made with made
  rw [← made]
  simpa only [operands] using (foldr_insertByKey_perm keyed).map Prod.snd

theorem sorted_perm {es : List Expr} (texts : ∀ e ∈ es, ∃ t, e.text = .ok t) :
    ∃ fs, sorted es = .ok fs ∧ fs.Perm es := by
  obtain ⟨keyed, hk, -⟩ := keyed_ok texts
  obtain ⟨fs, run⟩ : ∃ fs, sorted es = .ok fs := ⟨_, by simp only [sorted, hk, ok_bind]; rfl⟩
  exact ⟨fs, run, perm_of_sorted run⟩

/-- Only constants come first in the order. -/
theorem rank_pos {e : Expr} (other : e.isConst = false) : 0 < e.rank := by
  cases e with
  | const v b => cases other
  | nary op es => cases op <;> simp [rank]
  | cast k a b => cases k <;> simp [rank]
  | _ => simp [rank]

/-- A constant in front of other operands stays there. -/
theorem sorted_const (v w : Int) {es : List Expr} (others : ∀ e ∈ es, e.isConst = false)
    (texts : ∀ e ∈ es, ∃ t, e.text = .ok t) :
    ∃ fs, sorted (const v w :: es) = .ok (const v w :: fs) ∧ fs.Perm es := by
  obtain ⟨keyed, hk, hs⟩ := keyed_ok texts
  have ranks : ∀ p ∈ keyed, 0 < p.1.rank := by
    intro p hp
    obtain ⟨e, he, key, -⟩ := exists_of_forall₂ (keyed_run hk) hp
    obtain ⟨t, -, made⟩ := bind_eq_ok.mp key
    injection made with made
    rw [← made]
    exact rank_pos (others e he)
  obtain ⟨t, ht⟩ : ∃ t, (const v w).text = .ok t := ⟨_, rfl⟩
  have key : orderKey (const v w) = .ok ⟨0, t, (const v w).repr⟩ := by simp [orderKey, ht, rank]
  have front : ∀ rest : List (OrderKey × Expr), (∀ p ∈ rest, 0 < p.1.rank) →
      insertByKey ⟨0, t, (const v w).repr⟩ (const v w) rest =
        (⟨0, t, (const v w).repr⟩, const v w) :: rest := by
    intro rest later
    cases rest with
    | nil => rfl
    | cons p rest =>
      have high := later p (by simp)
      have above : OrderKey.lt p.1 ⟨0, t, (const v w).repr⟩ = false := by
        simp [OrderKey.lt, Nat.pos_iff_ne_zero.mp high]
      simp [insertByKey, above]
  have perm := foldr_insertByKey_perm keyed
  refine ⟨(keyed.foldr (fun p acc => insertByKey p.1 p.2 acc) []).map Prod.snd, ?_, ?_⟩
  · have first := front _ fun p hp => ranks p (perm.mem_iff.mp hp)
    simp only [sorted, List.mapM_cons, key, ok_bind]
    rw [hk]
    simp only [ok_bind, pure_eq_ok, List.foldr_cons, first, List.map_cons]
  · simpa only [hs] using perm.map Prod.snd

/-- An operator over operands is the only one of them, or a node over them as they are sorted. -/
theorem ordered_run {op : Nary} {es : List Expr} {r : Expr} (run : ordered op es = .ok r) :
    es = [r] ∨ es.length ≠ 1 ∧ ∃ fs, sorted es = .ok fs ∧ r = nary op fs := by
  obtain ⟨fs, hfs, run⟩ := bind_eq_ok.mp run
  have perm := perm_of_sorted hfs
  split at run
  · next e =>
    cases run
    exact .inl (List.perm_singleton.mp perm.symm)
  · next several =>
    cases run
    refine .inr ⟨fun single => ?_, fs, hfs, rfl⟩
    obtain ⟨e, he⟩ := List.length_eq_one_iff.mp (perm.length_eq.trans single)
    exact several e he

/-- `r` is the operand of `es` if it has only one, else a node over those operands in some order. -/
def Arranged (op : Nary) (es : List Expr) (r : Expr) : Prop :=
  es = [r] ∨ es.length ≠ 1 ∧ ∃ fs, fs.Perm es ∧ r = nary op fs

theorem arranged_of_ordered {op : Nary} {es : List Expr} {r : Expr} (run : ordered op es = .ok r) :
    Arranged op es r :=
  (ordered_run run).imp_right fun ⟨several, fs, hfs, made⟩ => ⟨several, fs, perm_of_sorted hfs, made⟩

/-- What a node takes over from its operands, an operator over them takes over. -/
theorem ordered_all {P : Expr → Prop} {op : Nary} {es : List Expr} {r : Expr}
    (node : ∀ {fs}, (∀ f ∈ fs, P f) → P (nary op fs)) (parts : ∀ e ∈ es, P e)
    (run : ordered op es = .ok r) : P r := by
  rcases arranged_of_ordered run with rfl | ⟨-, fs, perm, rfl⟩
  · exact parts r (List.mem_singleton_self r)
  · exact node fun f hf => parts f (perm.mem_iff.mp hf)

theorem ordered_arranged (op : Nary) {es : List Expr} (texts : ∀ e ∈ es, ∃ t, e.text = .ok t) :
    ∃ r, ordered op es = .ok r ∧ Arranged op es r := by
  obtain ⟨fs, hs, -⟩ := sorted_perm texts
  obtain ⟨r, run⟩ : ∃ r, ordered op es = .ok r := by
    simp only [ordered, hs, ok_bind]
    split <;> exact ⟨_, rfl⟩
  exact ⟨r, run, arranged_of_ordered run⟩

theorem Arranged.hasBits {op : Nary} {es : List Expr} {r : Expr} {w : Int}
    (h : Arranged op es r) (typed : AllBits es w) (some : es ≠ []) : HasBits r w := by
  rcases h with rfl | ⟨many, fs, perm, rfl⟩
  · exact typed r (by simp)
  · have length := perm.length_eq
    have nonempty := List.length_pos_of_ne_nil some
    exact .nary (by omega) (typed.perm perm.symm)

end ShapeRecovery.Expr
