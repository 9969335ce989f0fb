import ShapeRecovery.Expr.Canonical
import ShapeRecovery.Proofs.Expr.Order

namespace ShapeRecovery.Expr

theorem OrderKey.lt_asymm {a b : OrderKey} (h : a.lt b = true) : b.lt a = false := by
  have text := @String.lt_asymm b.text a.text
  have repr := @String.lt_asymm b.repr a.repr
  simp only [OrderKey.lt, Bool.or_eq_true, Bool.and_eq_true, decide_eq_true_eq] at h
  simp only [OrderKey.lt, Bool.or_eq_false_iff, Bool.and_eq_false_imp, decide_eq_false_iff_not,
    decide_eq_true_eq]
  rcases h with rank | ⟨rank, text' | ⟨same, repr'⟩⟩
  · exact ⟨by omega, fun other => by omega⟩
  · refine ⟨by omega, fun _ => ⟨fun less => text less text', fun same => ?_⟩⟩
    exact absurd text' (same ▸ String.lt_irrefl _)
  · refine ⟨by omega, fun _ => ⟨fun less => ?_, fun _ less => repr less repr'⟩⟩
    exact absurd less (same ▸ String.lt_irrefl _)

/-- Neighbours whose keys do not fall. -/
def Rising (p q : OrderKey × Expr) : Prop := q.1.lt p.1 = false

private theorem insertByKey_head (k : OrderKey) (e : Expr) (rest : List (OrderKey × Expr)) :
    ∀ p ∈ (insertByKey k e rest).head?, p = (k, e) ∨ p ∈ rest.head? := by
  intro p hp
  cases rest with
  | nil => exact .inl (by simpa [insertByKey, eq_comm] using hp)
  | cons q rest =>
    unfold insertByKey at hp
    split at hp
    · exact .inr hp
    · exact .inl (by simpa [eq_comm] using hp)

private theorem insertByKey_rising (k : OrderKey) (e : Expr) {rest : List (OrderKey × Expr)}
    (rising : rest.IsChain Rising) : (insertByKey k e rest).IsChain Rising := by
  induction rest with
  | nil => exact List.isChain_singleton _
  | cons q rest ih =>
    obtain ⟨k', e'⟩ := q
    obtain ⟨front, tail⟩ := List.isChain_cons.mp rising
    unfold insertByKey
    split
    · next less =>
      refine List.isChain_cons.mpr ⟨fun p hp => ?_, ih tail⟩
      rcases insertByKey_head k e rest p hp with rfl | hp
      · exact OrderKey.lt_asymm less
      · exact front p hp
    · next notLess =>
      refine List.isChain_cons.mpr ⟨fun p hp => ?_, rising⟩
      obtain rfl : (k', e') = p := by simpa using hp
      simpa [Rising] using notLess

private theorem foldr_insertByKey_rising (keyed : List (OrderKey × Expr)) :
    (keyed.foldr (fun p acc => insertByKey p.1 p.2 acc) []).IsChain Rising := by
  induction keyed with
  | nil => exact List.isChain_nil
  | cons p keyed ih => exact insertByKey_rising _ _ ih

private theorem foldr_insertByKey_of_rising {keyed : List (OrderKey × Expr)} (rising : keyed.IsChain Rising) :
    keyed.foldr (fun p acc => insertByKey p.1 p.2 acc) [] = keyed := by
  induction keyed with
  | nil => rfl
  | cons p keyed ih =>
    obtain ⟨front, tail⟩ := List.isChain_cons.mp rising
    rw [List.foldr_cons, ih tail]
    cases keyed with
    | nil => rfl
    | cons q keyed =>
      have notLess : q.1.lt p.1 = false := front q (by simp)
      simp [insertByKey, notLess]

private theorem keysRise_of_rising {keyed : List (OrderKey × Expr)} (rising : keyed.IsChain Rising)
    (keys : ∀ p ∈ keyed, orderKey p.2 = .ok p.1) : KeysRise (keyed.map Prod.snd) := by
  induction keyed with
  | nil => trivial
  | cons p keyed ih =>
    obtain ⟨front, tail⟩ := List.isChain_cons.mp rising
    obtain ⟨here, others⟩ := List.forall_mem_cons.mp keys
    cases keyed with
    | nil => trivial
    | cons q keyed =>
      exact ⟨⟨p.1, q.1, here, others q (by simp), front q (by simp)⟩, ih tail others⟩

private theorem rising_of_keysRise {keyed : List (OrderKey × Expr)} (keys : ∀ p ∈ keyed, orderKey p.2 = .ok p.1)
    (rise : KeysRise (keyed.map Prod.snd)) : keyed.IsChain Rising := by
  induction keyed with
  | nil => exact List.isChain_nil
  | cons p keyed ih =>
    obtain ⟨here, others⟩ := List.forall_mem_cons.mp keys
    cases keyed with
    | nil => exact List.isChain_singleton _
    | cons q keyed =>
      obtain ⟨⟨k, k', hk, hk', notLess⟩, rest⟩ := rise
      have next := others q (by simp)
      rw [here] at hk
      rw [next] at hk'
      cases hk
      cases hk'
      refine List.isChain_cons.mpr ⟨fun r hr => ?_, ih others rest⟩
      obtain rfl : q = r := by simpa using hr
      exact notLess

/-- The operands beside their keys, as sorting has them. -/
theorem sorted_run {es fs : List Expr} (run : sorted es = .ok fs) :
    ∃ keyed : List (OrderKey × Expr), keyed.map Prod.snd = es ∧
      (∀ p ∈ keyed, orderKey p.2 = .ok p.1) ∧
      fs = (keyed.foldr (fun p acc => insertByKey p.1 p.2 acc) []).map Prod.snd := by
  obtain ⟨keyed, hkeyed, made⟩ := bind_eq_ok.mp run
  have each := keyed_run hkeyed
  cases made
  refine ⟨keyed, ?_, fun p hp => ?_, rfl⟩
  · clear run hkeyed
    induction each with
    | nil => rfl
    | cons here _ ih => rw [List.map_cons, ih, here.2]
  · obtain ⟨e, -, key, same⟩ := exists_of_forall₂ each hp
    rw [same, key]

theorem orderKey_of_sorted {es fs : List Expr} (run : sorted es = .ok fs) :
    ∀ e ∈ es, ∃ k, orderKey e = .ok k := by
  obtain ⟨keyed, rfl, keys, -⟩ := sorted_run run
  exact List.forall_mem_map.mpr fun p hp => ⟨p.1, keys p hp⟩

/-- Sorting ends in operands in order. -/
theorem keysRise_of_sorted {es fs : List Expr} (run : sorted es = .ok fs) : KeysRise fs := by
  obtain ⟨keyed, -, keys, rfl⟩ := sorted_run run
  refine keysRise_of_rising (foldr_insertByKey_rising keyed) fun p hp => keys p ?_
  exact (foldr_insertByKey_perm keyed).mem_iff.mp hp

/-- Operands that are in order stay as they are. -/
theorem sorted_of_keysRise {es fs : List Expr} (rise : KeysRise es) (run : sorted es = .ok fs) :
    fs = es := by
  obtain ⟨keyed, rfl, keys, rfl⟩ := sorted_run run
  rw [foldr_insertByKey_of_rising (rising_of_keysRise keys rise)]

/-- Operands that are in order are one operand, or those of an operator as they are. -/
theorem ordered_of_keysRise {op : Nary} {es : List Expr} {r : Expr} (rise : KeysRise es)
    (run : ordered op es = .ok r) : es = [r] ∨ (∀ e, es ≠ [e]) ∧ r = .nary op es := by
  obtain ⟨fs, hfs, made⟩ := bind_eq_ok.mp run
  obtain rfl := sorted_of_keysRise rise hfs
  split at made
  · cases made
    exact .inl rfl
  · next several =>
    cases made
    exact .inr ⟨several, rfl⟩

theorem rank_of_orderKey {e : Expr} {k : OrderKey} (key : orderKey e = .ok k) : k.rank = e.rank := by
  obtain ⟨t, -, made⟩ := bind_eq_ok.mp key
  cases made
  rfl

theorem KeysRise.tail {e : Expr} {es : List Expr} (rise : KeysRise (e :: es)) : KeysRise es := by
  cases es with
  | nil => trivial
  | cons f es => exact rise.2

/-- After an operand that is no constant there is none. -/
theorem KeysRise.others {e : Expr} {es : List Expr} (rise : KeysRise (e :: es))
    (other : e.isConst = false) : ∀ f ∈ es, f.isConst = false := by
  induction es generalizing e with
  | nil => simp
  | cons f es ih =>
    obtain ⟨⟨k, k', hk, hk', notLess⟩, rest⟩ := rise
    have low : k.rank ≤ k'.rank := by
      simp only [OrderKey.lt, Bool.or_eq_false_iff, decide_eq_false_iff_not] at notLess
      omega
    rw [rank_of_orderKey hk, rank_of_orderKey hk'] at low
    have first : f.isConst = false := by
      have pos := rank_pos other
      cases f with
      | const v b =>
        change e.rank ≤ 0 at low
        omega
      | _ => rfl
    exact List.forall_mem_cons.mpr ⟨first, ih rest first⟩

/-- A constant before operands in order that are none keeps the order. -/
theorem KeysRise.cons_const {v w : Int} {e : Expr} {es : List Expr} {k : OrderKey}
    (key : orderKey e = .ok k) (other : e.isConst = false) (rise : KeysRise (e :: es)) :
    KeysRise (const v w :: e :: es) := by
  refine ⟨⟨⟨0, _, _⟩, k, rfl, key, ?_⟩, rise⟩
  have pos := rank_pos other
  rw [← rank_of_orderKey key] at pos
  simp only [OrderKey.lt, Bool.or_eq_false_iff, decide_eq_false_iff_not, Bool.and_eq_false_imp,
    decide_eq_true_eq]
  exact ⟨by omega, fun same => by omega⟩

end ShapeRecovery.Expr
