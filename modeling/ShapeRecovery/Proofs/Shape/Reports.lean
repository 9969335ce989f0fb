import ShapeRecovery.Proofs.Expr.ZeroFactor
import ShapeRecovery.Proofs.Shape.Consistency

namespace ShapeRecovery

open ShapeRecovery.Expr Collection

namespace Registry

variable {iw : Int}

private theorem subscriptDocument_total (pos : 0 < iw) {sub : Expr} (fit : sub.WellFormed) :
    ∃ doc, subscriptDocument iw sub = .ok doc := by
  obtain ⟨form, hform, fitA, fitB⟩ := linearParts_total pos fit
  obtain ⟨a, ha⟩ := fitA.text
  obtain ⟨b, hb⟩ := fitB.text
  exact ⟨_, by simp only [subscriptDocument, hform, ha, hb, ok_bind]; rfl⟩

private theorem entry_total (pos : 0 < iw) {shape : ArrayShape} (fit : shape.WellFormed) (name : String) :
    ∃ e, entry iw shape name = .ok e := by
  obtain ⟨sizes, hsizes⟩ := textList_total fit.sizes
  have rows : ∀ el ∈ shape.elements, ∃ doc, elementDocument iw el = .ok doc := by
    intro el mem
    obtain ⟨subs, hsubs⟩ := mapM_total fun s hs =>
      subscriptDocument_total pos ((fit.elements el mem).subscripts s hs)
    exact ⟨_, by simp only [elementDocument, hsubs, ok_bind]; rfl⟩
  obtain ⟨accesses, haccesses⟩ := mapM_total rows
  exact ⟨_, by simp only [entry, hsizes, haccesses, ok_bind]; rfl⟩

theorem entries_total (pos : 0 < iw) {arrays : List ArrayShape}
    (fit : ∀ shape ∈ arrays, shape.WellFormed) (seen : List String) :
    ∃ found, entries iw seen arrays = .ok found := by
  induction arrays generalizing seen with
  | nil => exact ⟨[], rfl⟩
  | cons shape rest ih =>
    obtain ⟨first, others⟩ := List.forall_mem_cons.mp fit
    obtain ⟨text, readable⟩ := first.base.text
    obtain ⟨name, named⟩ := Pointer.label_of_text readable
    obtain ⟨here, hhere⟩ := entry_total pos first name
    obtain ⟨more, hmore⟩ := ih others (name :: seen)
    simp only [entries, named, ok_bind]
    split
    · obtain ⟨found, run⟩ := ih others seen
      exact ⟨found, run⟩
    · exact ⟨_, by simp only [hhere, hmore, ok_bind]; rfl⟩

/-- Arrays of well-formed parts have a document. -/
theorem document_total (pos : 0 < iw) {r : Registry} (fit : ∀ shape ∈ r.arrays, shape.WellFormed) :
    ∃ doc, document iw r = .ok doc := by
  obtain ⟨found, run⟩ := entries_total pos fit []
  exact ⟨_, by simp only [document, run, ok_bind]; rfl⟩

/-- Arrays of well-formed parts have a listing. -/
theorem listing_total (pos : 0 < iw) {r : Registry} (fit : ∀ shape ∈ r.arrays, shape.WellFormed) :
    ∃ text, listing iw r = .ok text := by
  obtain ⟨parts, run⟩ := mapM_total fun shape mem => arrayLines_total pos (fit shape mem)
  exact ⟨_, by simp only [listing, run, ok_bind]; rfl⟩

end Registry

section indices

/-- All index expressions of a pointer. -/
def Pointer.indices : Pointer → List Expr
  | .object .. => []
  | .load source | .cast source => indices source
  | .index base idx => indices base ++ idx

private theorem Pointer.mem_indices {p : Pointer} {limit : Option Nat} {idx : List Expr} {e : Expr}
    (step : idx ∈ p.outerSteps limit) (mem : e ∈ idx) : e ∈ p.indices := by
  induction p generalizing limit with
  | index base idx' ih =>
    have either {limit : Option Nat} (step : idx ∈ base.outerSteps limit ++ [idx']) :
        e ∈ (Pointer.index base idx').indices := by
      rcases List.mem_append.mp step with step | step
      · exact List.mem_append_left _ (ih step)
      · exact List.mem_append_right _ (List.mem_singleton.mp step ▸ mem)
    match limit with
    | none => exact either step
    | some 0 => simp [Pointer.outerSteps] at step
    | some (n + 1) => exact either step
  | _ => simp [Pointer.outerSteps] at step

/-- Subscripts are indices of the steps they are read off. -/
private theorem mem_of_chainSubscripts {steps : List (List Expr)} {subs : List Expr} {e : Expr}
    (run : chainSubscripts steps = .ok subs) (mem : e ∈ subs) : ∃ idx ∈ steps, e ∈ idx := by
  obtain ⟨parts, hparts, made⟩ := bind_eq_ok.mp run
  cases made
  obtain ⟨part, hpart, mem⟩ := List.mem_flatten.mp mem
  obtain ⟨idx, hidx, here⟩ := exists_of_forall₂ (mapM_eq_ok_iff.mp hparts) hpart
  refine ⟨idx, hidx, ?_⟩
  match idx with
  | [] => cases here
  | [f] =>
    cases here
    exact mem
  | f :: g :: es =>
    cases here
    split at mem
    · exact List.mem_cons_of_mem f mem
    · exact mem

variable {hint : Hint} {w : Int} {accs : List Access} {els : List Element}

/-- What holds of zero and of all indices holds of the subscripts that are recorded. -/
private theorem subscripts_of_indices {Q : Expr → Prop} (pos : 0 < w) (zero : Q (const 0 w))
    (fit : ∀ acc ∈ accs, acc.ptr.WellFormed) (held : ∀ acc ∈ accs, ∀ e ∈ acc.ptr.indices, Q e)
    (run : entries hint w (accs.map .ok) = .ok els) : ∀ el ∈ els, ∀ s ∈ el.subscripts, Q s := by
  intro el mem s hs
  rw [entries_eq_mapM] at run
  obtain ⟨acc, hacc, here⟩ := exists_of_forall₂ (mapM_eq_ok_iff.mp run) mem
  have known := (List.mem_filter.mp hacc).1
  obtain ⟨subs, hsubs, -, entry⟩ := entryOf_eq hint pos (fit acc known) rfl
  rw [entry] at here
  cases here
  obtain ⟨chain, hchain, made⟩ := bind_eq_ok.mp hsubs
  cases made
  rcases List.mem_append.mp hs with hs | hs
  · split at hs
    · rw [List.eq_of_mem_replicate hs]
      exact zero
    · simp at hs
  · obtain ⟨idx, hidx, hs⟩ := mem_of_chainSubscripts hchain hs
    exact held acc known s (Pointer.mem_indices hidx hs)

end indices

namespace Analysis

open ArrayShape

variable {settings : Settings} {source : HintSource} {hint : Hint} {width : Option Int} {w : Int}
  {accs : List Access} {els : List Element} {allowed : Fault → Prop} {P : Expr → Prop}

/-- An analysis ends in well-formed arrays, or is refused for a cause that is allowed. -/
theorem ofAccesses_ends (searches : Searches allowed settings P) (hhint : source.hint = .ok hint)
    (wide : 0 < settings.indexWidth) (pos : 0 < width.getD settings.indexWidth)
    (fit : ∀ acc ∈ accs, acc.ptr.WellFormed)
    (sought : ∀ els, entries hint (width.getD settings.indexWidth) (accs.map .ok) = .ok els →
      ∀ el ∈ els, ∀ s ∈ el.subscripts, P s) :
    Ends allowed (ofAccesses settings source width (accs.map .ok)).outcome fun a =>
      ∀ shape ∈ a.registry.arrays, shape.WellFormed := by
  obtain ⟨els, hels, recorded⟩ := entries_total hint pos fit
  simp only [ofAccesses_eq, hhint, hels, ok_bind]
  have each : ∀ base ∈ arrayObjects hint els,
      Ends allowed (recovered settings (width.getD settings.indexWidth) hint els base)
        ArrayShape.WellFormed := by
    intro base mem
    have fresh := raw_of_recorded hels recorded fit mem
    have rows : Searchable (fun _ => P) (rawShape hint els base).validElements := {
      wellFormed := fun el hel => (fresh.elements el (List.mem_filter.mp hel).1).subscripts
      sought := fun el hel d s hs => by
        have known := (List.mem_filter.mp (List.mem_filter.mp hel).1).1
        exact searches.closed.sought false (sought els hels el known s (List.mem_of_mem_take hs)) }
    exact (recover_ends (fun _ => searches) pos fresh rows).mono fun _ recovered => recovered.wellFormed
  refine (Ends.mapM (R := fun _ shape => shape.WellFormed) each).bind fun arrays related => ?_
  have wellFormed : ∀ shape ∈ arrays, shape.WellFormed := fun shape mem =>
    (exists_of_forall₂ related mem).elim fun _ h => h.2
  have lines : listed settings arrays = .ok () := listed_ok_iff.mpr fun _ shape mem =>
    Registry.arrayLines_total wide (wellFormed shape mem)
  rw [lines]
  exact .ok wellFormed

/-- The arrays can be shown both as a document and as a listing. -/
structure Reported (iw : Int) (a : Analysis) : Prop where
  document : ∃ doc, a.registry.document iw = .ok doc
  listing : ∃ text, a.registry.listing iw = .ok text

private theorem reported_of_wellFormed {a : Analysis} {iw : Int} (pos : 0 < iw)
    (fit : ∀ shape ∈ a.registry.arrays, shape.WellFormed) : Reported iw a :=
  ⟨Registry.document_total pos fit, Registry.listing_total pos fit⟩

private theorem searches_or_zero (wide : 0 < settings.indexWidth) :
    Searches (· = .notNonzeroConstant) settings fun _ => True where
  closed := hereditary_true _
  nonzero := .inl rfl
  width := .inr wide

private theorem searches_zeroFree (wide : 0 < settings.indexWidth) :
    Searches (fun _ => False) settings fun e => e.zeroFree = true where
  toSeeks := seeks_zeroFree settings
  width := .inr wide

/-- Of well-formed accesses an analysis ends, and its arrays can be shown, unless the search for a size
meets the factor zero. Without products that have such a factor it always ends. -/
theorem ends_with_reports (hhint : source.hint = .ok hint) (wide : 0 < settings.indexWidth)
    (pos : 0 < width.getD settings.indexWidth) (fit : ∀ acc ∈ accs, acc.ptr.WellFormed) :
    Ends (· = .notNonzeroConstant) (ofAccesses settings source width (accs.map .ok)).outcome
        (Reported settings.indexWidth) ∧
      ((∀ acc ∈ accs, ∀ e ∈ acc.ptr.indices, e.zeroFree = true) →
        ∃ a, (ofAccesses settings source width (accs.map .ok)).outcome = .ok a ∧
          Reported settings.indexWidth a) := by
  have shown : ∀ a : Analysis, (∀ shape ∈ a.registry.arrays, shape.WellFormed) →
      Reported settings.indexWidth a := fun a => reported_of_wellFormed wide
  constructor
  · have ends := ofAccesses_ends (searches_or_zero wide) hhint wide pos fit
      fun _ _ _ _ _ _ => trivial
    exact ends.mono shown
  · intro free
    have ends := ofAccesses_ends (searches_zeroFree wide) hhint wide pos fit
      fun els run => subscripts_of_indices pos rfl fit free run
    exact (ends.mono shown).total fun _ => id

theorem ends_with_reports_mixed : (∀ acc ∈ mixed, acc.ptr.WellFormed) ∧
    (∀ acc ∈ mixed, ∀ e ∈ acc.ptr.indices, e.zeroFree = true) ∧
    ∃ a, (ofAccesses ⟨64, true⟩ .declarations (some 32) (mixed.map .ok)).outcome = .ok a ∧
      Reported 64 a := by
  have source : HintSource.declarations.hint = .ok Pointer.declaredSizes := rfl
  have wide : 0 < (Settings.mk 64 true).indexWidth := by decide
  have pos : (0 : Int) < (some 32 : Option Int).getD (Settings.mk 64 true).indexWidth := by decide
  have free : ∀ acc ∈ mixed, ∀ e ∈ acc.ptr.indices, e.zeroFree = true := by decide +kernel
  obtain ⟨-, ends⟩ := ends_with_reports source wide pos mixed_wellFormed
  exact ⟨mixed_wellFormed, free, ends free⟩

/-- The search for a size meets the factor zero, so that there is nothing to show. -/
theorem reports_refused : refusedLoad.ptr.WellFormed ∧
    ¬ ∃ a, (ofAccesses ⟨64, false⟩ .declarations none [.ok refusedLoad]).outcome = .ok a ∧
      Reported 64 a := by
  have refused : (ofAccesses ⟨64, false⟩ .declarations none [.ok refusedLoad]).outcome =
      .error .notNonzeroConstant := by decide +kernel
  refine ⟨refusedLoad_wellFormed, ?_⟩
  rintro ⟨a, run, -⟩
  rw [refused] at run
  cases run

end Analysis

end ShapeRecovery
