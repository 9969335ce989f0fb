import Mathlib.Data.List.Basic
import ShapeRecovery.Expr.Text

namespace ShapeRecovery

section cut

variable {c : Char} {as bs s t : List Char}

/-- What stands before the first `c` is told by the whole text. -/
theorem append_cut (before : c ∉ as) (before' : c ∉ bs) (same : as ++ c :: s = bs ++ c :: t) :
    as = bs ∧ s = t := by
  induction as generalizing bs with
  | nil =>
    cases bs with
    | nil => exact ⟨rfl, (List.cons.inj same).2⟩
    | cons b bs =>
      obtain ⟨first, -⟩ := List.cons.inj same
      exact absurd (first ▸ List.mem_cons_self) before'
  | cons a as ih =>
    cases bs with
    | nil =>
      obtain ⟨first, -⟩ := List.cons.inj same
      exact absurd (first ▸ List.mem_cons_self) before
    | cons b bs =>
      obtain ⟨first, rest⟩ := List.cons.inj same
      obtain ⟨others, tail⟩ := ih (List.not_mem_of_not_mem_cons before)
        (List.not_mem_of_not_mem_cons before') rest
      exact ⟨by rw [first, others], tail⟩

theorem natText_toList (n : Nat) : (toString n).toList = Nat.toDigits 10 n := by
  rw [Nat.toString_eq_ofList_toDigits, String.toList_ofList]

theorem isDigit_of_mem_natText {n : Nat} (mem : c ∈ (toString n).toList) : c.isDigit = true := by
  rw [natText_toList] at mem
  exact Nat.isDigit_of_mem_toDigits (by decide) (by decide) mem

theorem natText_injective {m n : Nat} (same : (toString m).toList = (toString n).toList) : m = n := by
  rw [natText_toList, natText_toList] at same
  have read := congrArg (Nat.ofDigitChars 10 · 0) same
  simpa only [Nat.ofDigitChars_ten_toDigits] using read

theorem negativeText_toList (n : Nat) :
    (toString (Int.negSucc n)).toList = '-' :: (toString (n + 1)).toList := by
  change ("-" ++ toString (n + 1)).toList = _
  rw [String.toList_append]
  rfl

private theorem mem_intText {v : Int} (mem : c ∈ (toString v).toList) : c = '-' ∨ c.isDigit = true := by
  cases v with
  | ofNat n => exact .inr (isDigit_of_mem_natText mem)
  | negSucc n =>
    rw [negativeText_toList] at mem
    exact (List.mem_cons.mp mem).imp_right isDigit_of_mem_natText

private theorem intText_injective {u v : Int} (same : (toString u).toList = (toString v).toList) : u = v := by
  have unsigned (m n : Nat) (same : (toString m).toList = '-' :: (toString n).toList) : False := by
    have digit : ('-').isDigit = true := isDigit_of_mem_natText (same ▸ List.mem_cons_self)
    exact absurd digit (by decide)
  cases u with
  | ofNat m =>
    cases v with
    | ofNat n => exact congrArg Int.ofNat (natText_injective same)
    | negSucc n =>
      rw [negativeText_toList] at same
      exact (unsigned m (n + 1) same).elim
  | negSucc m =>
    cases v with
    | ofNat n =>
      rw [negativeText_toList] at same
      exact (unsigned n (m + 1) same.symm).elim
    | negSucc n =>
      rw [negativeText_toList, negativeText_toList] at same
      have number := natText_injective (List.cons.inj same).2
      exact congrArg Int.negSucc (Nat.succ.inj number)

/-- A number that ends before a character of no number is told by the text. -/
theorem intText_cut {u v : Int} (sign : c ≠ '-') (digit : c.isDigit = false)
    (same : (toString u).toList ++ c :: s = (toString v).toList ++ c :: t) : u = v ∧ s = t := by
  have outside (v : Int) : c ∉ (toString v).toList := by
    intro mem
    exact (mem_intText mem).elim sign (by simp [digit])
  obtain ⟨number, rest⟩ := append_cut (outside u) (outside v) same
  exact ⟨intText_injective number, rest⟩

private theorem natText_cut {m n : Nat} (digit : c.isDigit = false)
    (same : (toString m).toList ++ c :: s = (toString n).toList ++ c :: t) : m = n ∧ s = t := by
  have outside (n : Nat) : c ∉ (toString n).toList := by
    intro mem
    simp [isDigit_of_mem_natText mem] at digit
  obtain ⟨number, rest⟩ := append_cut (outside m) (outside n) same
  exact ⟨natText_injective number, rest⟩

end cut

/-- The character before the number of a symbol is neither letter nor digit: all ranges of those beyond
ASCII are above it. -/
private theorem Text.isAlphanumeric_dollar : Text.isAlphanumeric '$' = false := by
  have above : ∀ r ∈ Text.alphanumericRanges, 36 < r.1 := by
    have each : (Text.alphanumericRanges.toList.all fun r => Nat.blt 36 r.1) = true := by
      decide +kernel
    exact fun r hr => Nat.le_of_ble_eq_true (List.all_eq_true.mp each r (Array.mem_toList_iff.mpr hr))
  have outside : (Text.alphanumericRanges.any fun r => r.1 ≤ 36 && 36 ≤ r.2) = false := by
    rw [Array.any_eq_false']
    intro r hr
    have := above r hr
    simp only [Bool.and_eq_true, decide_eq_true_eq, not_and]
    omega
  change (('$').isAlphanum || Text.alphanumericRanges.any fun r => r.1 ≤ 36 && 36 ≤ r.2) = false
  rw [outside]
  rfl

theorem Text.not_mem_of_isName {s : String} (named : Text.isName s = true) : '$' ∉ s.toList := by
  have tail (cs : List Char) (valid : Text.isNameTail cs = true) : '$' ∉ cs := by
    induction cs with
    | nil => simp
    | cons c cs ih =>
      unfold Text.isNameTail at valid
      split at valid
      · next none => cases none
      · next last =>
        rw [last]
        decide
      · next c' rest _ same =>
        cases same
        obtain ⟨here, others⟩ := Bool.and_eq_true_iff.mp valid
        have other : '$' ≠ c := by
          rintro rfl
          simp [Text.isWordChar, Text.isAlphanumeric_dollar] at here
        simpa [other] using ih others
  unfold Text.isName at named
  split at named
  · cases named
  · next c rest same =>
    obtain ⟨here, others⟩ := Bool.and_eq_true_iff.mp named
    have other : '$' ≠ c := by
      rintro rfl
      exact absurd here (by decide)
    simpa [same, other] using tail rest others

/-- A symbol with a valid name that ends before a character of no number is told by the text. -/
theorem Symbol.repr_cut {c : Char} {a b : Symbol} {s t : List Char} (digit : c.isDigit = false)
    (named : Text.isName a.name = true) (named' : Text.isName b.name = true)
    (same : a.repr.toList ++ c :: s = b.repr.toList ++ c :: t) : a = b ∧ s = t := by
  have written (a : Symbol) : a.repr.toList = a.name.toList ++ '$' :: (toString a.id).toList := by
    change (a.name ++ "$" ++ toString a.id).toList = _
    simp only [String.toList_append, List.append_assoc]
    rfl
  rw [written, written, List.append_assoc, List.append_assoc, List.cons_append, List.cons_append] at same
  obtain ⟨name, rest⟩ := append_cut (Text.not_mem_of_isName named) (Text.not_mem_of_isName named') same
  obtain ⟨number, after⟩ := natText_cut digit rest
  cases a
  cases b
  cases String.toList_inj.mp name
  cases number
  exact ⟨rfl, after⟩

theorem Loop.repr_append_injective {l m : Loop} {s t : List Char}
    (named : Text.isName l.name.name = true) (named' : Text.isName m.name.name = true)
    (same : l.repr.toList ++ s = m.repr.toList ++ t) : l = m ∧ s = t := by
  have written (l : Loop) : l.repr.toList = "loop(name=".toList ++ (l.name.repr.toList ++
      ',' :: ("depth=".toList ++ ((toString l.depth).toList ++ [')']))) := by
    change ("loop(name=" ++ l.name.repr ++ ",depth=" ++ toString l.depth ++ ")").toList = _
    simp [String.toList_append]
  simp only [written, List.append_assoc, List.cons_append, List.append_cancel_left_eq] at same
  obtain ⟨name, rest⟩ := Symbol.repr_cut (by decide) named named' same
  obtain ⟨depth, ends⟩ := intText_cut (by decide) (by decide) (List.append_cancel_left rest)
  cases l
  cases m
  rw [Loop.mk.injEq]
  exact ⟨⟨name, depth⟩, ends⟩

namespace Expr

mutual

/-- The symbols of unknowns and of loops in an expression, one entry per occurrence. -/
def symbols : Expr → List Symbol
  | const .. | uncomputable => []
  | unknown s _ => [s]
  | nary _ ops => symbolsOfList ops
  | quotient lhs rhs => symbols lhs ++ symbols rhs
  | cast _ arg _ => symbols arg
  | recurrence start step l => l.name :: (symbols start ++ symbols step)

def symbolsOfList : List Expr → List Symbol
  | [] => []
  | e :: es => symbols e ++ symbolsOfList es

end

/-- All symbols in `e` have valid names. -/
def Named (e : Expr) : Prop := ∀ s ∈ e.symbols, Text.isName s.name = true

instance (e : Expr) : Decidable e.Named := inferInstanceAs (Decidable (∀ _ ∈ _, _))

section named

variable {e a b : Expr} {es : List Expr} {op : Nary} {k : CastKind} {l : Loop} {s : Symbol} {v w : Int}

private theorem symbolsOfList_eq (es : List Expr) : symbolsOfList es = es.flatMap symbols := by
  induction es with
  | nil => rfl
  | cons e es ih =>
    rw [List.flatMap_cons, ← ih]
    rfl

@[simp] theorem named_const : (const v w).Named := List.forall_mem_nil _

@[simp] theorem named_uncomputable : uncomputable.Named := List.forall_mem_nil _

@[simp] theorem named_unknown : (unknown s w).Named ↔ Text.isName s.name = true :=
  List.forall_mem_singleton

@[simp] theorem named_nary : (nary op es).Named ↔ ∀ e ∈ es, e.Named := by
  change (∀ s ∈ symbolsOfList es, _) ↔ _
  simp only [symbolsOfList_eq, List.mem_flatMap]
  exact ⟨fun h e he s hs => h s ⟨e, he, hs⟩, fun h s ⟨e, he, hs⟩ => h e he s hs⟩

@[simp] theorem named_quotient : (quotient a b).Named ↔ a.Named ∧ b.Named :=
  List.forall_mem_append

@[simp] theorem named_cast : (cast k a w).Named ↔ a.Named := Iff.rfl

@[simp] theorem named_recurrence :
    (recurrence a b l).Named ↔ Text.isName l.name.name = true ∧ a.Named ∧ b.Named :=
  List.forall_mem_cons.trans (and_congr_right fun _ => List.forall_mem_append)

end named

section form

/-- The kind of a node as its complete form shows it. -/
def kindLabel : Expr → String
  | const .. => "Const"
  | unknown .. => "Unknown"
  | nary op _ => op.label
  | quotient .. => "UDiv"
  | cast kind .. => kind.label
  | recurrence .. => "AddRec"
  | uncomputable => "CouldNotCompute"

/-- The operands from the second one on, as they are written. -/
def furtherText : List Expr → List Char
  | [] => [']']
  | e :: es => ',' :: ' ' :: (e.repr.toList ++ furtherText es)

def listText : List Expr → List Char
  | [] => [']']
  | e :: es => e.repr.toList ++ furtherText es

/-- The complete form of an expression after its kind. -/
def partsText : Expr → List Char
  | const v bits => "val=".toList ++ ((toString v).toList ++
      ',' :: ("bits=".toList ++ ((toString bits).toList ++ [')'])))
  | unknown s bits => "name=".toList ++ (s.repr.toList ++
      ',' :: ("bits=".toList ++ ((toString bits).toList ++ [')'])))
  | nary _ ops => "ops=[".toList ++ (listText ops ++ [')'])
  | quotient lhs rhs => "lhs=".toList ++ (lhs.repr.toList ++ (",rhs=".toList ++ (rhs.repr.toList ++ [')'])))
  | cast _ arg bits => "op=".toList ++ (arg.repr.toList ++
      ',' :: ("bits=".toList ++ ((toString bits).toList ++ [')'])))
  | recurrence start step l => "start=".toList ++ (start.repr.toList ++ (",step=".toList ++
      (step.repr.toList ++ (",loop=".toList ++ (l.repr.toList ++ [')'])))))
  | uncomputable => [')']

private theorem bracketed_toList (es : List Expr) :
    (Text.bracketed (reprList es)).toList = '[' :: listText es := by
  have further : ∀ (es : List Expr) (e : Expr),
      (", ".intercalate (reprList (e :: es))).toList ++ [']'] = listText (e :: es) := by
    intro es
    induction es with
    | nil => simp [reprList, listText, furtherText]
    | cons f es ih =>
      intro e
      have rest := ih f
      simp only [reprList] at rest
      simp only [reprList, String.intercalate_cons_cons, String.toList_append, List.append_assoc,
        rest, listText, furtherText]
      rfl
  cases es with
  | nil => rfl
  | cons e es =>
    simp only [Text.bracketed, String.toList_append]
    rw [← further es e]
    rfl

/-- The complete form is the kind and, in brackets, the parts. -/
theorem repr_toList (e : Expr) : e.repr.toList = e.kindLabel.toList ++ '(' :: e.partsText := by
  cases e with
  | const v bits =>
    change ("Const(val=" ++ toString v ++ ",bits=" ++ toString bits ++ ")").toList = _
    unfold kindLabel partsText
    simp [String.toList_append]
  | unknown s bits =>
    change ("Unknown(name=" ++ s.repr ++ ",bits=" ++ toString bits ++ ")").toList = _
    unfold kindLabel partsText
    simp [String.toList_append]
  | nary op ops =>
    change (op.label ++ "(ops=" ++ Text.bracketed (reprList ops) ++ ")").toList = _
    unfold kindLabel partsText
    simp [String.toList_append, bracketed_toList]
  | quotient lhs rhs =>
    change ("UDiv(lhs=" ++ lhs.repr ++ ",rhs=" ++ rhs.repr ++ ")").toList = _
    unfold kindLabel partsText
    simp [String.toList_append]
  | cast kind arg bits =>
    change (kind.label ++ "(op=" ++ arg.repr ++ ",bits=" ++ toString bits ++ ")").toList = _
    unfold kindLabel partsText
    simp [String.toList_append]
  | recurrence start step l =>
    change ("AddRec(start=" ++ start.repr ++ ",step=" ++ step.repr ++ ",loop=" ++ l.repr ++ ")").toList
      = _
    unfold kindLabel partsText
    simp [String.toList_append]
  | uncomputable => rfl

theorem not_mem_kindLabel (e : Expr) : '(' ∉ e.kindLabel.toList := by
  cases e with
  | nary op ops => cases op <;> simp [kindLabel, Nary.label]
  | cast kind arg bits => cases kind <;> simp [kindLabel, CastKind.label]
  | _ => simp [kindLabel]

/-- No form begins with the end of a list. -/
theorem repr_ne_close (e : Expr) (s t : List Char) : e.repr.toList ++ s ≠ ']' :: t := by
  rw [repr_toList]
  cases e with
  | nary op ops => cases op <;> simp [kindLabel, Nary.label]
  | cast kind arg bits => cases kind <;> simp [kindLabel, CastKind.label]
  | _ => simp [kindLabel]

/-- The two nodes are of one kind. -/
def SameKind : Expr → Expr → Prop
  | const .., const .. | unknown .., unknown .. | quotient .., quotient .. => True
  | nary op _, nary op' _ => op = op'
  | cast kind .., cast kind' .. => kind = kind'
  | recurrence .., recurrence .. | uncomputable, uncomputable => True
  | _, _ => False

private theorem sameKind_of_kindLabel {a b : Expr} (same : a.kindLabel = b.kindLabel) : SameKind a b := by
  cases a with
  | nary op es =>
    cases b with
    | nary op' fs => cases op <;> cases op' <;> simp_all [kindLabel, Nary.label, SameKind]
    | cast kind' => cases op <;> cases kind' <;> simp [kindLabel, Nary.label, CastKind.label] at same
    | _ => cases op <;> simp [kindLabel, Nary.label] at same
  | cast kind =>
    cases b with
    | nary op' fs => cases kind <;> cases op' <;> simp [kindLabel, Nary.label, CastKind.label] at same
    | cast kind' => cases kind <;> cases kind' <;> simp_all [kindLabel, CastKind.label, SameKind]
    | _ => cases kind <;> simp [kindLabel, CastKind.label] at same
  | _ =>
    cases b with
    | nary op' fs => cases op' <;> simp [kindLabel, Nary.label] at same
    | cast kind' => cases kind' <;> simp [kindLabel, CastKind.label] at same
    | _ => simp_all [kindLabel, SameKind]

/-- Forms at the front of one text are of one kind and have their parts at the front of the rest. -/
private theorem parts_of_repr {a b : Expr} {s t : List Char} (same : a.repr.toList ++ s = b.repr.toList ++ t) :
    SameKind a b ∧ a.partsText ++ s = b.partsText ++ t := by
  rw [repr_toList, repr_toList, List.append_assoc, List.append_assoc, List.cons_append,
    List.cons_append] at same
  obtain ⟨label, parts⟩ := append_cut (not_mem_kindLabel a) (not_mem_kindLabel b) same
  exact ⟨sameKind_of_kindLabel (String.toList_inj.mp label), parts⟩

end form

mutual

/-- A form that stands at the front of a text is told by the text. -/
theorem repr_append_injective : ∀ a b : Expr, a.Named → b.Named → ∀ s t : List Char,
    a.repr.toList ++ s = b.repr.toList ++ t → a = b ∧ s = t := by
  intro a b named named' s t same
  obtain ⟨kind, parts⟩ := parts_of_repr same
  clear same
  match a, b, kind with
  | const v w, const v' w', _ =>
    unfold partsText at parts
    simp only [List.append_assoc, List.cons_append, List.append_cancel_left_eq] at parts
    obtain ⟨value, rest⟩ := intText_cut (by decide) (by decide) parts
    obtain ⟨bits, ends⟩ := intText_cut (by decide) (by decide) (List.append_cancel_left rest)
    exact ⟨by rw [value, bits], ends⟩
  | unknown x w, unknown x' w', _ =>
    unfold partsText at parts
    simp only [List.append_assoc, List.cons_append, List.append_cancel_left_eq] at parts
    obtain ⟨symbol, rest⟩ := Symbol.repr_cut (by decide) (named_unknown.mp named)
      (named_unknown.mp named') parts
    obtain ⟨bits, ends⟩ := intText_cut (by decide) (by decide) (List.append_cancel_left rest)
    exact ⟨by rw [symbol, bits], ends⟩
  | nary op es, nary _ fs, rfl =>
    unfold partsText at parts
    simp only [List.append_assoc, List.append_cancel_left_eq] at parts
    obtain ⟨operands, ends⟩ := listText_append_injective es fs (named_nary.mp named)
      (named_nary.mp named') _ _ parts
    exact ⟨by rw [operands], (List.cons.inj ends).2⟩
  | quotient a b, quotient a' b', _ =>
    obtain ⟨named, other⟩ := named_quotient.mp named
    obtain ⟨named', other'⟩ := named_quotient.mp named'
    unfold partsText at parts
    simp only [List.append_assoc, List.append_cancel_left_eq] at parts
    obtain ⟨lhs, rest⟩ := repr_append_injective a a' named named' _ _ parts
    obtain ⟨rhs, ends⟩ := repr_append_injective b b' other other' _ _ (List.append_cancel_left rest)
    exact ⟨by rw [lhs, rhs], (List.cons.inj ends).2⟩
  | cast kind a w, cast _ a' w', rfl =>
    unfold partsText at parts
    simp only [List.append_assoc, List.cons_append, List.append_cancel_left_eq] at parts
    obtain ⟨arg, rest⟩ := repr_append_injective a a' (named_cast.mp named) (named_cast.mp named') _ _
      parts
    obtain ⟨bits, ends⟩ := intText_cut (by decide) (by decide)
      (List.append_cancel_left (List.cons.inj rest).2)
    exact ⟨by rw [arg, bits], ends⟩
  | recurrence a b l, recurrence a' b' l', _ =>
    obtain ⟨loop, named, other⟩ := named_recurrence.mp named
    obtain ⟨loop', named', other'⟩ := named_recurrence.mp named'
    unfold partsText at parts
    simp only [List.append_assoc, List.cons_append, List.append_cancel_left_eq] at parts
    obtain ⟨start, rest⟩ := repr_append_injective a a' named named' _ _ parts
    obtain ⟨step, rest'⟩ := repr_append_injective b b' other other' _ _ (List.append_cancel_left rest)
    obtain ⟨loop, ends⟩ := Loop.repr_append_injective loop loop' (List.append_cancel_left rest')
    exact ⟨by rw [start, step, loop], (List.cons.inj ends).2⟩
  | uncomputable, uncomputable, _ => exact ⟨rfl, (List.cons.inj parts).2⟩

private theorem listText_append_injective : ∀ es fs : List Expr, (∀ e ∈ es, e.Named) → (∀ f ∈ fs, f.Named) →
    ∀ s t : List Char, listText es ++ s = listText fs ++ t → es = fs ∧ s = t
  | [], [], _, _, s, t, same => ⟨rfl, (List.cons.inj same).2⟩
  | [], f :: fs, _, _, s, t, same => by
    rw [listText, listText, List.append_assoc] at same
    exact absurd same.symm (repr_ne_close f _ _)
  | e :: es, [], _, _, s, t, same => by
    rw [listText, listText, List.append_assoc] at same
    exact absurd same (repr_ne_close e _ _)
  | e :: es, f :: fs, named, named', s, t, same => by
    rw [listText, listText, List.append_assoc, List.append_assoc] at same
    obtain ⟨here, others⟩ := List.forall_mem_cons.mp named
    obtain ⟨here', others'⟩ := List.forall_mem_cons.mp named'
    obtain ⟨first, rest⟩ := repr_append_injective e f here here' _ _ same
    obtain ⟨further, ends⟩ := furtherText_append_injective es fs others others' s t rest
    exact ⟨by rw [first, further], ends⟩

theorem furtherText_append_injective : ∀ es fs : List Expr, (∀ e ∈ es, e.Named) →
    (∀ f ∈ fs, f.Named) → ∀ s t : List Char, furtherText es ++ s = furtherText fs ++ t → es = fs ∧ s = t
  | [], [], _, _, s, t, same => ⟨rfl, (List.cons.inj same).2⟩
  | [], f :: fs, _, _, s, t, same => absurd (List.cons.inj same).1 (by decide)
  | e :: es, [], _, _, s, t, same => absurd (List.cons.inj same).1 (by decide)
  | e :: es, f :: fs, named, named', s, t, same => by
    simp only [furtherText, List.cons_append, List.append_assoc, List.cons.injEq, true_and] at same
    obtain ⟨here, others⟩ := List.forall_mem_cons.mp named
    obtain ⟨here', others'⟩ := List.forall_mem_cons.mp named'
    obtain ⟨first, rest⟩ := repr_append_injective e f here here' _ _ same
    obtain ⟨further, ends⟩ := furtherText_append_injective es fs others others' s t rest
    exact ⟨by rw [first, further], ends⟩

end

/-- Expressions with valid names that are written alike are one expression. -/
theorem eq_of_repr {a b : Expr} (named : a.Named) (named' : b.Named) (same : a.repr = b.repr) : a = b := by
  have text : a.repr.toList ++ [] = b.repr.toList ++ [] := by rw [same]
  exact (repr_append_injective a b named named' [] [] text).1

/-- Without valid names two operands could be written as one, whose name goes on where the form of the
first operand ends. -/
example : (sum [unknown ⟨"a", 1⟩ 8, unknown ⟨"b", 2⟩ 8]).repr =
    (sum [unknown ⟨"a$1,bits=8), Unknown(name=b", 2⟩ 8]).repr := by decide +kernel

end Expr

end ShapeRecovery
