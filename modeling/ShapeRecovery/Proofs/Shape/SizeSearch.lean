import ShapeRecovery.Proofs.Expr.Search
import ShapeRecovery.Proofs.Shape.Agreement
import ShapeRecovery.Proofs.Shape.Analysis

namespace ShapeRecovery

open ShapeRecovery.Expr Tracked

theorem Tracked.EndsFrom.keeps {σ α γ : Type} {allowed : Fault → Prop} {view : σ → γ}
    {x : Tracked σ α} {s : σ} {P : α → σ → Prop} (ends : EndsFrom allowed x s P) (keeps : Keeps view x) :
    EndsFrom allowed x s fun a t => P a t ∧ view t = view s := by
  rcases ends with refused | ⟨a, t, run, h⟩
  · exact .inl refused
  · have same := keeps.same s
    rw [run] at same
    exact .inr ⟨a, t, run, h, same⟩

namespace ArrayShape

variable {allowed : Fault → Prop} {settings : Settings} {P : Nat → Expr → Prop} {w v : Int}
  {hint : List Int} {shape : ArrayShape} {dims : List Dimension} {n d m : Nat}

section each

variable {Q R : Nat → Dimension → Prop}

/-- `Q` holds of every dimension and its number. -/
def Each (Q : Nat → Dimension → Prop) (dims : List Dimension) : Prop :=
  ∀ i dim, dims[i]? = some dim → Q i dim

/-- A dimension is replaced; of the others `R` is known by what held before. -/
theorem Each.set {dim : Dimension} (each : Each Q dims) (here : R d dim)
    (others : ∀ i other, i ≠ d → Q i other → R i other) : Each R (dims.set d dim) := by
  intro i other found
  by_cases same : d = i
  · subst same
    obtain ⟨inside, rfl⟩ := List.getElem?_eq_some_iff.mp found
    rwa [List.getElem_set_self]
  · rw [List.getElem?_set_ne same] at found
    exact others i other (Ne.symm same) (each i other found)

theorem Each.mono (each : Each Q dims) (weaker : ∀ i dim, Q i dim → R i dim) : Each R dims :=
  fun i dim found => weaker i dim (each i dim found)

private theorem each_replicate (n : Nat) (h : ∀ i < n, Q i .unknown) : Each Q (List.replicate n .unknown) := by
  intro i dim found
  have mem : dim ∈ List.replicate n Dimension.unknown := List.mem_of_getElem? found
  obtain ⟨inside, -⟩ := List.getElem?_eq_some_iff.mp found
  rw [List.eq_of_mem_replicate mem]
  exact h i (inside.trans_eq List.length_replicate)

end each

/-- A declared size that counts, and is not zero as a word, is the size of the dimension. -/
def AsDeclared (w : Int) (hint : List Int) (i : Nat) (dim : Dimension) : Prop :=
  ∀ size, knownHint? hint i = some size → ¬ (Word.modulus w : Int) ∣ size →
    ∃ e, Expr.ofInt size w = .ok e ∧ dim = ⟨e, true⟩

theorem asDeclared_told {i : Nat} {size : Int} {e : Expr} (known : knownHint? hint i = some size)
    (run : Expr.ofInt size w = .ok e) : AsDeclared w hint i ⟨e, true⟩ := by
  intro size' known' _
  rw [known] at known'
  cases known'
  exact ⟨e, run, rfl⟩

/-- Also where nothing is told. -/
private theorem asDeclared_isSome {i : Nat} {e : Expr}
    (told : ∀ size, knownHint? hint i = some size → Expr.ofInt size w = .ok e) :
    AsDeclared w hint i ⟨e, (knownHint? hint i).isSome⟩ := by
  intro size known _
  exact ⟨e, told size known, by simp [known]⟩

theorem asDeclared_untold {i : Nat} {dim : Dimension} (untold : knownHint? hint i = none) :
    AsDeclared w hint i dim := by
  intro size known
  simp [untold] at known

/-- The size cannot be computed, or is an expression that `P` holds of. -/
def Fits (P : Nat → Expr → Prop) (i : Nat) (dim : Dimension) : Prop :=
  dim.size = .uncomputable ∨ Bears (P i) dim.size

/-- The dimension `i` while those from `m` on are settled and the first one may be. -/
structure Underway (P : Nat → Expr → Prop) (w : Int) (hint : List Int) (m i : Nat) (dim : Dimension) :
    Prop where
  fits : Fits P i dim
  declared : m ≤ i → AsDeclared w hint i dim
  computed : m ≤ i → dim.size ≠ .uncomputable

/-- What the search leaves behind: sizes that fit, the declared ones among them, and the mark that all
inner sizes were found, which is set exactly if they were. -/
structure Resolved (P : Nat → Expr → Prop) (w : Int) (hint : List Int) (shape : ArrayShape) : Prop where
  fits : Each (Fits P) shape.dims
  declared : Each (AsDeclared w hint) shape.dims
  sized : shape.sized = true ↔
    1 ≤ shape.dims.length ∧ Each (fun i dim => 1 ≤ i → dim.size ≠ .uncomputable) shape.dims

/-- The search has come to its end: the valid accesses `els` have a subscript for each dimension. -/
structure Found (P : Nat → Expr → Prop) (w : Int) (hint : List Int) (els : List Element)
    (shape : ArrayShape) : Prop extends Resolved P w hint shape where
  length : hint ≠ [] → shape.dims.length = hint.length
  count : shape.sized = true → ∀ el ∈ els, el.subscripts.length = shape.dims.length

/-- A fresh array has nothing settled. -/
theorem underway_fresh (n : Nat) : Each (Underway P w hint n) (List.replicate n .unknown) :=
  each_replicate n fun i below =>
    ⟨.inl rfl, fun above => absurd above (by omega), fun above => absurd above (by omega)⟩

theorem Underway.outer {i : Nat} {dim : Dimension} (known : Underway P w hint d i dim)
    (above : d ≤ m) : Underway P w hint m i dim :=
  ⟨known.fits, fun beyond => known.declared (above.trans beyond),
    fun beyond => known.computed (above.trans beyond)⟩

/-- When all inner dimensions are settled, the array is marked. -/
theorem resolved_markSized (outer : 1 ≤ shape.dims.length)
    (first : ∀ dim, shape.dims[0]? = some dim → AsDeclared w hint 0 dim)
    (settled : Each (Underway P w hint 1) shape.dims) : Resolved P w hint shape.markSized where
  fits := settled.mono fun _ _ known => known.fits
  declared i dim here := by
    rcases Nat.eq_zero_or_pos i with rfl | inner
    · exact first dim here
    · exact (settled i dim here).declared inner
  sized := iff_of_true rfl ⟨outer, settled.mono fun _ _ known => known.computed⟩

/-- The accesses that sizes are inferred from. Their subscripts before dimension `d` are opened into
what `P d` holds of. -/
structure Searchable (P : Nat → Expr → Prop) (els : List Element) : Prop where
  wellFormed : ∀ el ∈ els, ∀ s ∈ el.subscripts, s.WellFormed
  sought : ∀ el ∈ els, ∀ d, ∀ s ∈ el.subscripts.take d, Sought (P d) false s

section sizes

variable (searches : ∀ d, Searches allowed settings (P d)) (pos : 0 < w)
include searches pos

theorem bears_ofInt (d : Nat) (size : Int) :
    ∃ e, Expr.ofInt size w = .ok e ∧ Bears (P d) e :=
  ⟨_, ofInt_eq pos size, (searches d).closed.const _ _, w, hasBits_const_bmod pos size⟩

/-- A declared size is taken over as a word. -/
theorem setHinted_ends {α : Type} {next : Unit → Tracked ArrayShape α} {size : Int}
    {Q : α → ArrayShape → Prop} (d : Nat)
    (step : ∀ e, Expr.ofInt size w = .ok e → Bears (P d) e →
      EndsFrom allowed (next ()) (shape.setSize d e true) Q) :
    EndsFrom allowed (setHinted w d size >>= next) shape Q := by
  obtain ⟨e, run, bears⟩ := bears_ofInt searches pos d size
  simp only [setHinted, bind_assoc]
  refine .liftExcept_bind (T := (· = e)) ⟨e, run, rfl⟩ fun e' same => .modify_bind ?_
  subst same
  exact step _ run bears

/-- The size that the subscripts suggest is found, or the search is refused. -/
private theorem estimateSize_ends {inner : Expr} (rows : Searchable P shape.validElements)
    (length : ∀ el ∈ shape.validElements, el.subscripts.length = n) (inside : d ≤ n)
    (typed : HasBits inner v) :
    Ends allowed (estimateSize settings w shape d inner).outcome (Bears (P d)) := by
  have length : ∀ row ∈ shape.rows, row.length = n := List.forall_mem_map.mpr length
  simp only [estimateSize, Traced.outcome_bind, Traced.outcome_lift,
    dividedSubscripts_eq length inside, ok_bind]
  have mem : ∀ s ∈ shape.rows.flatMap fun row => (row.take d).reverse,
      s.WellFormed ∧ Sought (P d) false s := by
    intro s hs
    obtain ⟨row, hrow, hs⟩ := List.mem_flatMap.mp hs
    obtain ⟨el, hel, rfl⟩ := List.mem_map.mp hrow
    rw [List.mem_reverse] at hs
    exact ⟨rows.wellFormed el hel s (List.mem_of_mem_take hs), rows.sought el hel d s hs⟩
  generalize shape.rows.flatMap (fun row => (row.take d).reverse) = subs at mem
  rw [sayTexts_total _ _ fun s hs => (mem s hs).1, ok_bind]
  split
  · obtain ⟨e, run, bears⟩ := bears_ofInt searches pos d 0
    exact .of_total ⟨e, run, bears⟩
  · next some =>
    have searched : SearchInput allowed settings (P d) subs :=
      ⟨by simpa using some, fun s hs => (mem s hs).1, fun _ => (searches d).width,
        fun s hs => (mem s hs).2⟩
    have divisor := commonDivisor_ends (searches d).toSeeks searched
    simp only [Traced.outcome_bind, Traced.outcome_lift]
    apply divisor.bind
    rintro g ⟨⟨kept, u, gtyped⟩, -⟩
    obtain ⟨q, r, run, ⟨qtyped, found⟩, rtyped, -⟩ := (searches d).closed.quotRem gtyped typed kept
    obtain ⟨a, ha⟩ := gtyped.text
    obtain ⟨b, hb⟩ := typed.text
    obtain ⟨c, hc⟩ := qtyped.text
    obtain ⟨e, he⟩ := rtyped.text
    simp only [run, ha, hb, hc, he, ok_bind, Traced.outcome_say, Traced.outcome_pure]
    exact .ok ⟨found, u, qtyped⟩

/-- The size of a dimension, as it is declared or else as the subscripts suggest it. -/
private theorem size_ends {α : Type} {next : Expr → Tracked ArrayShape α} {inner : Expr}
    {Q : α → ArrayShape → Prop} (rows : Searchable P shape.validElements)
    (length : ∀ el ∈ shape.validElements, el.subscripts.length = n) (inside : d ≤ n)
    (typed : HasBits inner v)
    (step : ∀ size, Bears (P d) size →
      (∀ told, knownHint? hint d = some told → Expr.ofInt told w = .ok size) →
      EndsFrom allowed (next size) shape Q) :
    EndsFrom allowed (match knownHint? hint d with
      | some size => do
        let size ← liftM (Expr.ofInt size w)
        next size
      | none => do
        let shape ← get
        let size ← liftM (estimateSize settings w shape d inner)
        next size) shape Q := by
  cases known : knownHint? hint d with
  | some told =>
    obtain ⟨e, run, bears⟩ := bears_ofInt searches pos d told
    refine .liftExcept_bind (T := (· = e)) ⟨e, run, rfl⟩ ?_
    intro size same
    subst same
    refine step _ bears fun other same => ?_
    rw [known] at same
    cases same
    exact run
  | none =>
    refine .get_bind ?_
    refine .lift_bind (estimateSize_ends searches pos rows length inside typed) fun size bears => ?_
    exact step size bears fun told same => by simp [known] at same

/-- The dimensions that are left open get their declared sizes or none. -/
private theorem leaveOpen_ends (count d : Nat) (fits : Each (Fits P) shape.dims)
    (declared : Each (fun i dim => i < d ∨ d + count ≤ i → AsDeclared w hint i dim) shape.dims) :
    EndsFrom allowed (leaveOpen w hint count d) shape fun _ t =>
      Each (Fits P) t.dims ∧ Each (AsDeclared w hint) t.dims := by
  induction count generalizing d shape with
  | zero => exact .of_pure ⟨fits, declared.mono fun i dim known => known (by omega)⟩
  | succ count ih =>
    have rest {e : Expr} {hinted : Bool} (fit : Fits P d ⟨e, hinted⟩)
        (here : AsDeclared w hint d ⟨e, hinted⟩) :
        EndsFrom allowed (leaveOpen w hint count (d + 1)) (shape.setSize d e hinted) fun _ t =>
          Each (Fits P) t.dims ∧ Each (AsDeclared w hint) t.dims := by
      refine ih (d + 1) (fits.set fit fun _ _ _ known => known) (declared.set (fun _ => here) ?_)
      intro i dim other known settled
      exact known (by omega)
    unfold leaveOpen
    cases known : knownHint? hint d with
    | some size =>
      exact setHinted_ends searches pos d fun e run bears => rest (.inr bears) (asDeclared_told known run)
    | none => exact .modify_bind (rest (.inl rfl) (asDeclared_untold known))

/-- Where the size of dimension `d` cannot be found, the search ends without a mark. -/
private theorem giveUp_ends (inside : d < shape.dims.length) (outer : 1 ≤ d) (unsized : shape.sized = false)
    (first : ∀ dim, shape.dims[0]? = some dim → AsDeclared w hint 0 dim)
    (underway : Each (Underway P w hint (d + 1)) shape.dims)
    (vacuous : AsDeclared w hint d ⟨.uncomputable, false⟩) :
    EndsFrom allowed (leaveOpen w hint (d - 1) 1) (shape.setSize d .uncomputable false) fun _ t =>
      Resolved P w hint t ∧ t.dims.length = shape.dims.length := by
  have fits : Each (Fits P) (shape.setSize d .uncomputable false).dims :=
    underway.set (.inl rfl) fun i dim _ known => known.fits
  have declared : Each (fun i dim => i < 1 ∨ 1 + (d - 1) ≤ i → AsDeclared w hint i dim)
      (shape.setSize d .uncomputable false).dims := by
    intro i dim here settled
    by_cases same : d = i
    · subst same
      obtain ⟨-, rfl⟩ := List.getElem?_eq_some_iff.mp here
      simpa [setSize] using vacuous
    · simp only [setSize, List.getElem?_set_ne same] at here
      rcases Nat.eq_zero_or_pos i with rfl | inner
      · exact first dim here
      · exact (underway i dim here).declared (by omega)
  have keeps : Keeps (fun t => (t.sized, t.dims.length, t.dims[d]?)) (leaveOpen w hint (d - 1) 1) := by
    refine leaveOpen_keeps w hint _ _ fun t i e hinted below => ?_
    have apart : i ≠ d := by omega
    simp [setSize, apart]
  refine ((leaveOpen_ends searches pos _ _ fits declared).keeps keeps).mono ?_
  rintro - t ⟨⟨fits, declared⟩, same⟩
  simp only [Prod.mk.injEq] at same
  obtain ⟨mark, length, last⟩ := same
  have open' : t.dims[d]? = some ⟨.uncomputable, false⟩ := by
    rw [last]
    exact List.getElem?_set_self inside
  refine ⟨⟨fits, declared, iff_of_false ?_ ?_⟩, ?_⟩
  · simp [mark, setSize, unsized]
  · rintro ⟨-, all⟩
    exact all d _ open' outer rfl
  · rw [length]
    exact List.length_set

/-- The search from the dimension `d` on: it finds all sizes, or gives up at one of them. -/
private theorem findSizesFrom_ends {inner : Expr} (rows : Searchable P shape.validElements)
    (count : ∀ el ∈ shape.validElements, el.subscripts.length = n) (length : shape.dims.length = n)
    (below : d < n) (unsized : shape.sized = false)
    (first : ∀ dim, shape.dims[0]? = some dim → AsDeclared w hint 0 dim)
    (underway : Each (Underway P w hint (d + 1)) shape.dims) (typed : HasBits inner w) :
    EndsFrom allowed (findSizesFrom settings w hint d inner) shape fun _ t =>
      Resolved P w hint t ∧ t.dims.length = n := by
  induction d generalizing inner shape with
  | zero =>
    have some : 1 ≤ shape.dims.length := by omega
    exact .of_modify ⟨resolved_markSized some first underway, length⟩
  | succ d ih =>
    unfold findSizesFrom
    refine .say_bind ?_
    dsimp only
    refine size_ends searches pos rows count (by omega) typed fun size bears told => ?_
    have inside : d + 1 < shape.dims.length := by omega
    split
    · next failed =>
      -- A declared size that fails here is zero as a word, so that nothing is said of it.
      have vacuous : AsDeclared w hint (d + 1) ⟨.uncomputable, false⟩ := by
        intro told' known apart
        have run := told told' known
        rw [ofInt_eq pos] at run
        cases run
        simp only [isZero, reduceCtorEq, decide_false, Bool.or_false, beq_iff_eq] at failed
        exact absurd (Int.dvd_of_bmod_eq_zero failed) apart
      refine .say_bind (.modify_bind ?_)
      exact length ▸ giveUp_ends searches pos inside (by omega) unsized first underway vacuous
    · next found =>
      simp only [Bool.or_eq_true, decide_eq_true_eq, not_or] at found
      obtain ⟨u, styped⟩ := bears.2
      obtain ⟨t, ht⟩ := styped.text
      obtain ⟨factor, resized, ftyped⟩ := resize_typed pos styped
      obtain ⟨product, made, same⟩ := productOf_spec settings.indexWidth (by simp)
        (show AllBits [inner, factor] w by simpa using ⟨typed, ftyped⟩)
      refine .modify_bind (.liftExcept_bind (T := fun _ => True) ⟨t, ht, trivial⟩ fun _ _ => .say_bind ?_)
      refine .liftExcept_bind (T := (· = factor)) ⟨factor, resized, rfl⟩ ?_
      intro factor' eq
      subst eq
      refine .liftExcept_bind (T := (HasBits · w)) ⟨product, made, same.hasBits⟩ fun next ntyped => ?_
      refine ih rows count (by simpa [setSize] using length) (by omega) unsized ?_ ?_ ntyped
      · simpa [setSize] using first
      · refine underway.set ⟨.inr bears, fun _ => asDeclared_isSome told, fun _ => found.2⟩ ?_
        exact fun i dim other known =>
          ⟨known.fits, fun above => known.declared (by omega), fun above => known.computed (by omega)⟩

theorem findInnerSizes_ends (rows : Searchable P shape.validElements)
    (count : ∀ el ∈ shape.validElements, el.subscripts.length = n) (length : shape.dims.length = n)
    (complete : hint ≠ [] → n = hint.length) (outer : 1 ≤ m) (inside : m ≤ n)
    (unsized : shape.sized = false)
    (first : ∀ dim, shape.dims[0]? = some dim → AsDeclared w hint 0 dim)
    (underway : Each (Underway P w hint m) shape.dims) :
    EndsFrom allowed (findInnerSizes settings w hint (m - 1)) shape fun _ =>
      Found P w hint shape.validElements := by
  refine .say_bind ?_
  refine .liftExcept_bind (T := (HasBits · w)) ⟨_, one_eq pos, hasBits_const_bmod pos 1⟩ ?_
  intro one typed
  have settled : Each (Underway P w hint (m - 1 + 1)) shape.dims := by rwa [Nat.sub_add_cancel outer]
  refine (findSizesFrom_ends searches pos rows count length (by omega) unsized first settled
    typed).mono ?_
  rintro - t ⟨resolved, same⟩
  exact { resolved with
    length := fun declared => same.trans (complete declared)
    count := fun _ => same ▸ count }

/-- Before the inner sizes are searched for, the outer one is taken from the declaration. -/
private theorem findBelowOuter_ends (rows : Searchable P shape.validElements)
    (count : ∀ el ∈ shape.validElements, el.subscripts.length = hint.length)
    (length : shape.dims.length = hint.length) (outer : 1 ≤ m) (inside : m ≤ hint.length)
    (unsized : shape.sized = false) (underway : Each (Underway P w hint m) shape.dims) :
    EndsFrom allowed (do
      match knownHint? hint 0 with
      | some size => setHinted w 0 size
      | none => pure ()
      findInnerSizes settings w hint (m - 1)) shape fun _ => Found P w hint shape.validElements := by
  cases known : knownHint? hint 0 with
  | none =>
    exact findInnerSizes_ends searches pos rows count length (fun _ => rfl) outer inside unsized
      (fun dim _ => asDeclared_untold known) underway
  | some size =>
    refine setHinted_ends searches pos 0 fun e run bears => ?_
    have first : ∀ dim, (shape.setSize 0 e true).dims[0]? = some dim → AsDeclared w hint 0 dim := by
      intro dim here
      obtain ⟨-, rfl⟩ := List.getElem?_eq_some_iff.mp here
      simpa [setSize] using asDeclared_told known run
    have settled : Each (Underway P w hint m) (shape.setSize 0 e true).dims := by
      refine underway.set ⟨.inr bears, ?_, ?_⟩ fun _ _ _ before => before
      · exact fun above => absurd above (by omega)
      · exact fun above => absurd above (by omega)
    have rows : Searchable P (shape.setSize 0 e true).validElements := rows
    exact findInnerSizes_ends searches pos rows count (by simpa [setSize] using length) (fun _ => rfl)
      outer inside unsized first settled

/-- The declared sizes are taken from the inner end up to the first unknown one. -/
private theorem setTrailing_ends (k : Nat) (underway : Each (Underway P w hint k) shape.dims) :
    EndsFrom allowed (setTrailing w hint k) shape fun left t =>
      left ≤ k ∧ Each (Underway P w hint left) t.dims := by
  induction k generalizing shape with
  | zero => exact .of_pure ⟨le_rfl, underway⟩
  | succ k ih =>
    unfold setTrailing
    cases known : knownHint? hint k with
    | none => exact .of_pure ⟨le_rfl, underway⟩
    | some size =>
      refine setHinted_ends searches pos k fun e run bears => ?_
      have computed : e ≠ .uncomputable := by
        rintro rfl
        obtain ⟨u, typed⟩ := bears.2
        cases typed
      have set : Each (Underway P w hint k) (shape.setSize k e true).dims := by
        refine underway.set ⟨.inr bears, fun _ => asDeclared_told known run, fun _ => computed⟩ ?_
        intro i dim other before
        exact ⟨before.fits, fun above => before.declared (by omega),
          fun above => before.computed (by omega)⟩
      refine (ih set).mono ?_
      rintro left t ⟨below, after⟩
      exact ⟨by omega, after⟩

/-- An array before its sizes are inferred. Its valid accesses have as many subscripts as sizes are
declared, if any are. -/
structure Raw (hint : List Int) (shape : ArrayShape) : Prop where
  dims : shape.dims = List.replicate hint.length .unknown
  unsized : shape.sized = false
  base : shape.base.WellFormed
  elements : ∀ el ∈ shape.elements, el.WellFormed
  count : hint ≠ [] → ∀ el ∈ shape.validElements, el.subscripts.length = hint.length

omit searches pos in
private theorem countDimensions_total (named : ∃ name, shape.base.label = .ok name) :
    ∃ n, (countDimensions shape).outcome = .ok n := by
  obtain ⟨name, named⟩ := named
  simp only [countDimensions, Traced.outcome_bind, Traced.outcome_lift, named, ok_bind]
  split
  · exact ⟨0, rfl⟩
  · split
    · exact ⟨_, rfl⟩
    · exact ⟨0, rfl⟩

/-- Without a declaration the accesses tell how many dimensions there are. -/
theorem findSizes_undeclared (raw : Raw [] shape) (rows : Searchable P shape.validElements)
    (name : String) :
    EndsFrom allowed (do
      let n ← liftM (countDimensions shape)
      if n = 0 then say s!"unable to determine number of dimensions for {name}"
      else do
        modify fun shape => shape.withDimensions n
        say s!"extract number of dimensions from subscripts: {n}"
        findInnerSizes settings w [] (n - 1)) shape fun _ => Found P w [] shape.validElements := by
  obtain ⟨text, readable⟩ := raw.base.text
  obtain ⟨n, counted⟩ := countDimensions_total (Pointer.label_of_text readable)
  refine .lift_bind (T := (· = n)) (.of_total ⟨n, counted, rfl⟩) fun m same => ?_
  subst same
  split
  · have open' : shape.dims = [] := raw.dims
    refine .of_say ⟨⟨?_, ?_, ?_⟩, by simp, ?_⟩
    · simp [Each, open']
    · simp [Each, open']
    · simp [raw.unsized, open']
    · simp [raw.unsized]
  · next some =>
    have length : ∀ el ∈ shape.validElements, el.subscripts.length = m :=
      List.forall_mem_map.mp (length_of_countDimensions counted some)
    refine .modify_bind (.say_bind ?_)
    have rows : Searchable P (shape.withDimensions m).validElements := rows
    exact findInnerSizes_ends searches pos rows length List.length_replicate
      (fun declared => absurd rfl declared) (Nat.pos_of_ne_zero some) le_rfl raw.unsized
      (fun dim _ => asDeclared_untold rfl) (underway_fresh m)

theorem findSizes_ends (raw : Raw hint shape) (rows : Searchable P shape.validElements) :
    EndsFrom allowed (findSizes settings w hint) shape fun _ => Found P w hint shape.validElements := by
  obtain ⟨text, readable⟩ := raw.base.text
  have named := Pointer.label_of_text readable
  refine .get_bind (.liftExcept_bind (T := fun _ => True) (named.imp fun _ h => ⟨h, trivial⟩) ?_)
  refine fun name _ => .say_bind ?_
  have total : shape.dims.length = hint.length := by rw [raw.dims, List.length_replicate]
  dsimp only
  split
  · next none =>
    have undeclared : hint = [] := List.length_eq_zero_iff.mp (total.symm.trans none)
    subst undeclared
    exact findSizes_undeclared searches pos raw rows name
  · next some =>
    have declared : hint ≠ [] := by
      rintro rfl
      exact some total
    have length := raw.count declared
    rw [if_neg (show ¬ hint.length ≠ shape.dims.length from not_not.mpr total.symm), total]
    have underway : Each (Underway P w hint hint.length) shape.dims := by
      rw [raw.dims]
      exact underway_fresh _
    have keeps : Keeps (fun t => (t.sized, t.dims.length, t.elements))
        (setTrailing w hint hint.length) :=
      setTrailing_keeps w hint _ fun t i e hinted => by simp [setSize]
    refine .bind ((setTrailing_ends searches pos _ underway).keeps keeps) ?_
    rintro left t ⟨⟨below, settled⟩, same⟩
    obtain ⟨unsized, tlength, telements⟩ : t.sized = false ∧ t.dims.length = hint.length ∧
        t.elements = shape.elements := by simpa [raw.unsized, total] using same
    have valid : t.validElements = shape.validElements := by rw [validElements, telements, validElements]
    split
    · next none =>
      subst none
      have outer : 1 ≤ t.dims.length := by omega
      have resolved := resolved_markSized outer (fun dim here => (settled 0 dim here).declared le_rfl)
        (settled.mono fun i dim known => known.outer (Nat.zero_le 1))
      exact .say_bind (.of_modify { resolved with
        length := fun _ => tlength
        count := fun _ => tlength ▸ length })
    · next open' =>
      rw [← valid] at rows length ⊢
      exact findBelowOuter_ends searches pos rows length tlength (Nat.pos_of_ne_zero open') below unsized
        settled

end sizes

end ArrayShape

end ShapeRecovery
