import ShapeRecovery.Proofs.Expr.ProductParts
import ShapeRecovery.Proofs.Expr.Termination

namespace ShapeRecovery

namespace Traced

variable {α β : Type}

/-- Only the continuation of the result that a step has counts. -/
theorem bind_congr (x : Traced α) {f g : α → Traced β} (same : ∀ a, x.outcome = .ok a → f a = g a) :
    x >>= f = x >>= g := by
  have cont : ExceptT.bindCont f x.run.value = ExceptT.bindCont g x.run.value := by
    cases run : x.run.value with
    | error e => rfl
    | ok a => exact same a run
  exact congrArg (fun y => ExceptT.mk (Logged.mk y.value (x.run.log ++ y.log))) cont

/-- As `ShapeRecovery.Agree`, for steps that write messages: those are the same too. -/
structure Agree (x y : Traced α) (P : α → Prop) : Prop where
  same : x = y
  halts : Halts x.outcome P

namespace Agree

variable {x y : Traced α} {f g : α → Traced β} {P Q : α → Prop} {R : β → Prop}

theorem of_halts (halts : Halts x.outcome P) : Agree x x P := ⟨rfl, halts⟩

theorem of_pure {a : α} (h : P a) : Agree (pure a : Traced α) (pure a) P := of_halts (.ok h)

theorem mono (agree : Agree x y P) (weaker : ∀ a, P a → Q a) : Agree x y Q :=
  ⟨agree.same, agree.halts.mono weaker⟩

theorem bind (first : Agree x y P) (next : ∀ a, P a → Agree (f a) (g a) R) :
    Agree (x >>= f) (y >>= g) R := by
  obtain ⟨rfl, halts⟩ := first
  refine ⟨bind_congr x fun a run => (next a (halts.of_run run)).same, ?_⟩
  rw [outcome_bind]
  exact halts.bind fun a h => (next a h).halts

/-- What comes before a step has no bound. -/
theorem after (first : Halts x.outcome P) (next : ∀ a, P a → Agree (f a) (g a) R) :
    Agree (x >>= f) (x >>= g) R :=
  (of_halts first).bind next

theorem lift {z : Except Fault α} (first : Halts z P) (next : ∀ a, P a → Agree (f a) (g a) R) :
    Agree (liftM z >>= f) (liftM z >>= g) R :=
  after first next

end Agree

end Traced

namespace Expr

variable {iw : Int}

section substitution

theorem unsigned_halts (v w : Int) : Halts (Word.unsigned v w) fun _ => True := by
  unfold Word.unsigned
  split
  · exact .error (by simp)
  · exact .ok trivial

theorem checkDirection_halts (kind : CastKind) (bits : Int) (w : Option Int) :
    Halts (checkDirection kind bits w) fun _ => True := by
  cases w with
  | none => exact .error (by simp)
  | some w =>
    unfold checkDirection
    repeat' split
    all_goals first | exact .ok trivial | exact .error (by simp)

theorem convert_ends (kind : CastKind) (bits : Int) : ∀ e : Expr,
    Halts (convert kind bits e) fun _ => True
  | uncomputable => .ok trivial
  | const v w => by
    unfold convert
    split
    · exact .ok trivial
    refine (checkDirection_halts kind bits _).bind fun _ _ => ?_
    split
    · exact (unsigned_halts v w).bind fun u _ => (ofInt_halts u bits).mono fun _ _ => trivial
    · exact (ofInt_halts v bits).mono fun _ _ => trivial
  | cast kind' arg w => by
    unfold convert
    split
    · exact .ok trivial
    refine (checkDirection_halts kind bits _).bind fun _ _ => ?_
    split
    · exact convert_ends kind bits arg
    · exact .ok trivial
  | unknown .. | nary .. | quotient .. | recurrence .. => by
    unfold convert
    refine (width_halts _).bind fun w _ => ?_
    split
    · exact .ok trivial
    · exact (checkDirection_halts kind bits w).bind fun _ _ => .ok trivial

theorem convert_halts (kind : CastKind) (bits : Int) (e : Expr) :
    Halts (convert kind bits e) fun r => weight r = weight e :=
  ((convert_ends kind bits e).and_of_run fun _ run => weight_convert run).mono fun _ h => h.2

private theorem unsignedQuotient_halts (lhs rhs : Expr) : Halts (unsignedQuotient lhs rhs) fun _ => True := by
  unfold unsignedQuotient
  split
  · exact .ok trivial
  split
  · exact .ok trivial
  split
  · next a w b w' _ _ =>
    split
    · exact .ok trivial
    refine (unsigned_halts a w).bind fun n _ => (unsigned_halts b w').bind fun d _ => ?_
    split
    · exact .error (by simp)
    · exact (ofInt_halts (n / d) w).mono fun _ _ => trivial
  · exact .ok trivial

theorem maximum_halts (signed : Bool) (iw : Int) (ops : List Expr) :
    Halts (maximum signed iw ops) fun _ => True := by
  have read (w v : Int) : Halts (readConstant signed w v) fun _ => True := by
    unfold readConstant
    split
    · exact .ok trivial
    · exact unsigned_halts v w
  unfold maximum
  split
  · exact .ok trivial
  refine (commonWidth_halts iw _).bind fun w _ => ?_
  refine (Ends.mapM (R := fun _ _ => True) fun v _ => read w v).bind fun vs _ => ?_
  split
  · exact (ordered_halts _ _).mono fun _ _ => trivial
  · refine (ofInt_halts _ w).bind fun c _ => ?_
    exact (ordered_halts _ _).mono fun _ _ => trivial

theorem nth_halts (ops : List Expr) (k : Nat) : Halts (nth ops k) fun _ => True := by
  unfold nth
  split
  · exact .ok trivial
  · exact .error (by simp)

theorem withOperands_halts (iw : Int) (e : Expr) (ops : List Expr) :
    Halts (withOperands iw e ops) fun _ => True := by
  have leaf : Halts (if ops.isEmpty then .ok e else .error .tooManyOperands) fun _ => True := by
    split
    · exact .ok trivial
    · exact .error (by simp)
  cases e with
  | nary op es =>
    cases op with
    | sum => exact (sumOf_halts iw ops).mono fun _ _ => trivial
    | product => exact (productOf_halts iw ops).mono fun _ _ => trivial
    | signedMax => exact maximum_halts true iw ops
    | unsignedMax => exact maximum_halts false iw ops
  | quotient => exact (nth_halts ops 0).bind fun a _ => (nth_halts ops 1).bind fun b _ =>
      unsignedQuotient_halts a b
  | cast kind arg bits =>
    exact (nth_halts ops 0).bind fun a _ => (convert_halts kind bits a).mono fun _ _ => trivial
  | recurrence => exact (nth_halts ops 0).bind fun a _ => (nth_halts ops 1).bind fun b _ => .ok trivial
  | _ => exact leaf

mutual

theorem substitute_halts (iw : Int) (env : Expr → Option Expr) :
    ∀ e : Expr, Halts (substitute iw env e) fun _ => True
  | const .. | unknown .. | uncomputable | nary _ [] => by
    unfold substitute
    split <;> exact .ok trivial
  | nary op (e :: es) => by
    unfold substitute
    split
    · exact .ok trivial
    · exact (substituteList_halts iw env (e :: es)).bind fun ops _ => withOperands_halts iw _ ops
  | quotient lhs rhs => by
    unfold substitute
    split
    · exact .ok trivial
    · exact (substitute_halts iw env lhs).bind fun a _ => (substitute_halts iw env rhs).bind fun b _ =>
        withOperands_halts iw _ _
  | cast _ arg _ => by
    unfold substitute
    split
    · exact .ok trivial
    · exact (substitute_halts iw env arg).bind fun a _ => withOperands_halts iw _ _
  | recurrence start step _ => by
    unfold substitute
    split
    · exact .ok trivial
    · exact (substitute_halts iw env start).bind fun a _ => (substitute_halts iw env step).bind fun b _ =>
        withOperands_halts iw _ _

theorem substituteList_halts (iw : Int) (env : Expr → Option Expr) :
    ∀ es : List Expr, Halts (substituteList iw env es) fun _ => True
  | [] => .ok trivial
  | e :: es => (substitute_halts iw env e).bind fun _ _ =>
      (substituteList_halts iw env es).bind fun _ _ => .ok trivial

end

end substitution

section division

theorem zero_halts (w : Int) : Halts (zero w) fun _ => True :=
  (ofInt_halts 0 w).mono fun _ _ => trivial

theorem one_halts (w : Int) : Halts (one w) fun _ => True :=
  (ofInt_halts 1 w).mono fun _ _ => trivial

theorem immediateDivision_halts (w : Int) (num den : Expr) :
    Halts (immediateDivision? w num den) fun _ => True := by
  have zero := zero_halts w
  unfold immediateDivision?
  split
  · exact (one_halts w).bind fun q _ => zero.bind fun r _ => .ok trivial
  split
  · exact zero.bind fun q _ => zero.bind fun r _ => .ok trivial
  split
  · exact zero.bind fun r _ => .ok trivial
  · exact .ok trivial

theorem indivisible_halts (w : Int) (num : Expr) : Halts (indivisible w num) fun _ => True :=
  (zero_halts w).bind fun _ _ => .ok trivial

private theorem divideByUnknown_halts (iw w : Int) (num den : Expr) (bits : Int) :
    Halts (divideByUnknown iw w num den bits) fun _ => True := by
  refine (zero_halts bits).bind fun nought _ => (substitute_halts iw _ num).bind fun r _ => ?_
  split
  · exact (one_halts bits).bind fun unit _ => (substitute_halts iw _ num).bind fun q _ =>
      (zero_halts w).bind fun z _ => .ok trivial
  · exact indivisible_halts w num

variable (iw : Int) (den : Expr)

mutual

theorem divideByAtom_halts : ∀ num : Expr, Halts (divideByAtom iw den num) fun _ => True := by
  intro num
  unfold divideByAtom
  refine (commonWidth_halts iw _).bind fun w _ => (immediateDivision_halts w num den).bind fun now _ => ?_
  cases now with
  | some qr => exact .ok trivial
  | none =>
    cases num with
    | const n b =>
      cases den with
      | const d b' =>
        dsimp only
        split
        · exact indivisible_halts w _
        · have divided : Halts (Word.quotRem n d) fun _ => True := by
            unfold Word.quotRem
            split
            · exact .error (by simp)
            · exact .ok trivial
          exact divided.bind fun qr _ => (ofInt_halts qr.1 w).bind fun q _ =>
            (ofInt_halts qr.2 w).bind fun r _ => .ok trivial
      | _ => exact indivisible_halts w _
    | recurrence start step l =>
      exact (divideByAtom_halts start).bind fun _ _ => (divideByAtom_halts step).bind fun _ _ => .ok trivial
    | nary op es =>
      cases op with
      | sum =>
        refine (divideTerms_halts es).bind fun parts _ => ?_
        exact (sumOf_halts iw _).bind fun q _ => (sumOf_halts iw _).bind fun r _ => .ok trivial
      | product =>
        refine (divideFactor_halts es).bind fun found _ => ?_
        cases found with
        | some quotients =>
          exact (productOf_halts iw quotients).bind fun q _ => (zero_halts w).bind fun r _ => .ok trivial
        | none =>
          cases den with
          | unknown s b => exact divideByUnknown_halts iw w _ _ b
          | _ => exact indivisible_halts w _
      | _ => exact indivisible_halts w _
    | _ => exact indivisible_halts w _

theorem divideTerms_halts : ∀ es : List Expr, Halts (divideTerms iw den es) fun _ => True
  | [] => .ok trivial
  | e :: es => (divideByAtom_halts e).bind fun _ _ => (divideTerms_halts es).bind fun _ _ => .ok trivial

theorem divideFactor_halts : ∀ es : List Expr, Halts (divideFactor? iw den es) fun _ => True
  | [] => .ok trivial
  | e :: es => by
    refine (divideByAtom_halts e).bind fun qr _ => ?_
    dsimp only
    split
    · exact .ok trivial
    · exact (divideFactor_halts es).bind fun _ _ => .ok trivial

end

mutual

theorem divideBy_halts (iw : Int) : ∀ den num : Expr, Halts (divideBy iw den num) fun _ => True
  | nary .product factors, num => by
    unfold divideBy
    refine (commonWidth_halts iw _).bind fun w _ => (immediateDivision_halts w num _).bind fun now _ => ?_
    cases now with
    | some qr => exact .ok trivial
    | none =>
      refine (divideByAll_halts iw factors num).bind fun found _ => ?_
      cases found with
      | some q => exact (zero_halts w).bind fun r _ => .ok trivial
      | none => exact indivisible_halts w num
  | const .., num | unknown .., num | quotient .., num | cast .., num | recurrence .., num
  | uncomputable, num | nary .sum _, num | nary .signedMax _, num | nary .unsignedMax _, num => by
    rw [divideBy]
    · exact divideByAtom_halts iw _ num
    · simp

theorem divideByAll_halts (iw : Int) : ∀ (factors : List Expr) (num : Expr),
    Halts (divideByAll? iw factors num) fun _ => True
  | [], num => .ok trivial
  | factor :: factors, num => by
    refine (divideBy_halts iw factor num).bind fun qr _ => ?_
    dsimp only
    split
    · exact divideByAll_halts iw factors qr.1
    · exact .ok trivial

end

end division

section parts

/-- The parts of factors that were taken apart weigh no more than the factors, and less together where a
recurrence was among them. -/
structure Lightens (factors : List Expr) (parts : ProductParts) : Prop where
  starts : weightProduct parts.starts ≤ weightProduct factors
  steps : weightProduct parts.steps ≤ weightProduct factors
  together : parts.hasRecurrence = true →
    weightProduct parts.starts + weightProduct parts.steps < weightProduct factors

theorem Lightens.append {fs gs : List Expr} {p q : ProductParts} (left : Lightens fs p)
    (right : Lightens gs q) : Lightens (fs ++ gs) (p.append q) where
  starts := by simpa [ProductParts.append] using Nat.mul_le_mul left.starts right.starts
  steps := by simpa [ProductParts.append] using Nat.mul_le_mul left.steps right.steps
  together moves := by
    simp only [ProductParts.append, weightProduct_append]
    rcases Bool.or_eq_true_iff.mp moves with moves | moves
    · exact mul_add_mul_lt (left.together moves) right.starts right.steps (weightProduct_pos gs)
    · have less := mul_add_mul_lt (right.together moves) left.starts left.steps (weightProduct_pos fs)
      simpa only [Nat.mul_comm] using less

private theorem ofFactor_halts (iw : Int) (e : Expr) : Halts (ProductParts.ofFactor iw e) (Lightens [e]) := by
  have positive := weight_pos e
  have nothing : Lightens [e] .nothing :=
    ⟨weightProduct_pos _, weightProduct_pos _, by simp [ProductParts.nothing]⟩
  have still : Lightens [e] (.still e) := ⟨le_rfl, le_rfl, by simp [ProductParts.still]⟩
  have moving {as bs : List Expr} (less : weightProduct as + weightProduct bs < weight e) :
      Lightens [e] ⟨as, bs, true⟩ := by
    have whole : weightProduct [e] = weight e := by simp [weightProduct]
    exact ⟨by dsimp only; omega, by dsimp only; omega, fun _ => by dsimp only; omega⟩
  unfold ProductParts.ofFactor
  split
  · next kind start step l bits =>
    have around (a : Expr) : Halts (withOperands iw (cast kind (recurrence start step l) bits) [a])
        fun r => weight r = weight a := convert_halts kind bits a
    simp only [weight] at moving
    refine (around step).bind fun b heavy => ?_
    have low := weight_pos start
    split
    · refine .ok (moving ?_)
      simp only [weightProduct, mul_one, heavy]
      omega
    · refine (around start).bind fun a heavy' => .ok (moving ?_)
      simp only [weightProduct, mul_one, heavy, heavy']
      omega
  · exact .ok still
  · exact .ok still
  · exact .ok still
  · next start step l =>
    have low := weight_pos start
    simp only [weight] at moving
    refine .ok (moving ?_)
    split <;> simp only [weightProduct, mul_one] <;> omega
  · exact .ok still
  · exact .ok still
  · exact .ok still
  · exact .ok nothing

private theorem ofFactors_halts (iw : Int) (es : List Expr) :
    Halts (ProductParts.ofFactors iw es) (Lightens es) := by
  induction es with
  | nil => exact .ok ⟨le_rfl, le_rfl, by simp [ProductParts.nothing]⟩
  | cons e es ih =>
    exact (ofFactor_halts iw e).bind fun p here => ih.bind fun q rest => .ok (here.append rest)

theorem searchableProduct_halts (iw : Int) (e : Expr) :
    Halts (searchableProduct iw e) fun r => weight r ≤ weight e := by
  have positive := weight_pos e
  unfold searchableProduct
  split
  · next factors =>
    split
    · refine (width_halts _).bind fun w _ => (ofInt_halts 1 _).mono fun r unit => ?_
      omega
    · refine (productOf_halts iw _).mono fun r low => ?_
      have fewer : weightProduct (factors.filter isSearchedFactor) ≤ weightProduct factors :=
        weightProduct_sublist List.filter_sublist
      simp only [weight]
      omega
  · exact .ok le_rfl

end parts

section search

variable {settings : Settings} {divisor divisor' : List Expr → Traced Expr}

/-- The search for a divisor of expressions that weigh less than `n` runs alike under two bounds. -/
def DivisorsAgree (divisor divisor' : List Expr → Traced Expr) (n : Nat) : Prop :=
  ∀ es, weightSum es < n → Traced.Agree (divisor es) (divisor' es) fun _ => True

private theorem searchTerms_agree (iw : Int) (e : Expr) (below : DivisorsAgree divisor divisor' (weight e)) :
    Traced.Agree (searchTerms divisor iw e) (searchTerms divisor' iw e) fun _ => True := by
  have pair {a b : Expr} (less : weight a + weight b < weight e) :
      Traced.Agree (divisor [a, b]) (divisor' [a, b]) fun _ => True :=
    below [a, b] (by simpa [weightSum] using less)
  unfold searchTerms
  split
  · exact .lift (withOperands_halts iw _ _) fun a _ => .lift (withOperands_halts iw _ _) fun b _ =>
      .of_pure trivial
  · exact .of_pure trivial
  · exact .of_pure trivial
  · exact .of_pure trivial
  · exact .of_pure trivial
  · exact .of_pure trivial
  · exact .of_pure trivial
  · next factors =>
    refine .lift (ofFactors_halts iw factors) fun parts light => ?_
    split
    · next moving =>
      have less := light.together (Bool.and_eq_true_iff.mp moving).1
      refine .lift (productOf_halts iw _) fun a low => .lift (productOf_halts iw _) fun b low' => ?_
      exact (pair (by simp only [weight]; omega)).bind fun d _ => .of_pure trivial
    split
    · exact .of_pure trivial
    · exact .lift (productOf_halts iw _) fun t _ => .of_pure trivial
  · next start step l =>
    refine .lift (searchableProduct_halts iw start) fun a low => ?_
    refine .lift (searchableProduct_halts iw step) fun b low' => ?_
    exact (pair (by simp only [weight]; omega)).bind fun d _ => .of_pure trivial
  · exact .of_pure trivial

theorem searchTermsOfList_agree (iw : Int) {es : List Expr} {n : Nat}
    (below : DivisorsAgree divisor divisor' n) (light : weightSum es ≤ n) :
    Traced.Agree (searchTermsOfList divisor iw es) (searchTermsOfList divisor' iw es) fun _ => True := by
  induction es with
  | nil => exact .of_pure trivial
  | cons e es ih =>
    simp only [weightSum] at light
    have first := searchTerms_agree iw e fun es' less => below es' (by omega)
    exact first.bind fun here _ => (ih (by omega)).bind fun rest _ => .of_pure trivial

theorem sayRow_halts (settings : Settings) (label : String) (es : List Expr) :
    Halts (sayRow settings label es).outcome fun _ => True := by
  unfold sayRow
  split
  · have row : Halts (textRow es) fun _ => True := (textList_halts es).bind fun _ _ => .ok trivial
    rw [Traced.outcome_bind]
    exact row.bind fun _ _ => .ok trivial
  · exact .ok trivial

private theorem constantDivisors_halts (settings : Settings) (e : Expr) :
    Halts (constantDivisors settings e).outcome fun _ => True := by
  cases e with
  | const v w =>
    have signs : Halts (signFactor v w) fun _ => True := by
      unfold signFactor
      split
      · exact (ofInt_halts (-1) w).bind fun e _ => .ok trivial
      · exact .ok trivial
    have found : Halts (Number.factors v) fun _ => True := by
      unfold Number.factors
      split
      · exact .error (by simp)
      · exact .ok trivial
    by_cases nought : v = 0
    · simpa only [constantDivisors, nought, if_true] using .error (by simp)
    simp only [constantDivisors, nought, if_false, Traced.outcome_bind, Traced.outcome_lift]
    refine signs.bind fun sign _ => ?_
    unfold sizeFactors
    split
    · rw [Traced.outcome_bind]
      exact (one_halts w).bind fun e _ => .ok trivial
    · simp only [Traced.outcome_bind, Traced.outcome_lift]
      refine found.bind fun ns _ => ?_
      refine (Ends.mapM (R := fun _ _ => True) fun n _ => (ofInt_halts _ w).mono fun _ _ => trivial).bind ?_
      exact fun parts _ => (sayRow_halts settings _ _).bind fun _ _ => .ok trivial
  | _ => exact .error (by simp)

private theorem candidates_halts (settings : Settings) (es : List Expr) :
    Halts (candidates settings es).outcome fun _ => True := by
  induction es with
  | nil => exact .ok trivial
  | cons e es ih =>
    have here : Halts (factorCandidates settings e).outcome fun _ => True := by
      unfold factorCandidates
      split
      · exact constantDivisors_halts settings e
      · exact .ok trivial
    simp only [candidates, Traced.outcome_bind]
    exact here.bind fun _ _ => ih.bind fun _ _ => .ok trivial

private theorem matching_halts (iw : Int) (ds : List Expr) (term : Expr) :
    Halts (matching iw ds term) fun _ => True := by
  induction ds generalizing term with
  | nil => exact .ok trivial
  | cons d ds ih =>
    refine (divideBy_halts iw d term).bind fun qr _ => ?_
    dsimp only
    split
    · exact (ih qr.1).bind fun _ _ => .ok trivial
    · exact ih term

private theorem matchingAll_halts (iw : Int) (terms ds : List Expr) :
    Halts (matchingAll iw terms ds) fun _ => True := by
  induction terms generalizing ds with
  | nil => exact .ok trivial
  | cons term terms ih =>
    unfold matchingAll
    split
    · exact ih ds
    refine (matching_halts iw ds term).bind fun kept _ => ?_
    split
    · exact .ok trivial
    · exact ih kept

private theorem divisorOfTerms_halts (settings : Settings) (w : Int) (terms : List Expr) :
    Halts (divisorOfTerms settings w terms).outcome fun _ => True := by
  have join (ds : List Expr) : Halts (joinCandidates settings.indexWidth w ds) fun _ => True := by
    unfold joinCandidates
    split
    · exact one_halts w
    · exact .ok trivial
    · exact (productOf_halts _ _).mono fun _ _ => trivial
  unfold divisorOfTerms
  split
  · exact one_halts w
  split
  · exact zero_halts w
  · simp only [Traced.outcome_bind]
    refine (candidates_halts settings _).bind fun seeds _ => ?_
    exact (matchingAll_halts _ _ seeds).bind fun kept _ => join _

private theorem divisorStep_agree (settings : Settings) (es : List Expr)
    (below : DivisorsAgree divisor divisor' (weightSum es)) :
    Traced.Agree (divisorStep divisor settings es) (divisorStep divisor' settings es) fun _ => True := by
  cases es with
  | nil => exact .of_halts (.error (show Fault.noExpressions ≠ .outOfFuel by simp))
  | cons e es =>
    refine .lift (width_halts e) fun w _ => ?_
    refine (searchTermsOfList_agree _ below le_rfl).bind fun terms _ => ?_
    exact .after (sayRow_halts settings _ terms) fun _ _ => .of_halts (divisorOfTerms_halts settings _ terms)

/-- Beyond the weight of the expressions, the bound on the recurrences opened makes no difference. -/
theorem divisorWithin_agree (settings : Settings) (m n : Nat) (es : List Expr) (enough : weightSum es < m)
    (enough' : weightSum es < n) :
    Traced.Agree (divisorWithin settings m es) (divisorWithin settings n es) fun _ => True := by
  induction m generalizing n es with
  | zero => omega
  | succ m ih =>
    cases n with
    | zero => omega
    | succ n =>
      apply divisorStep_agree
      intro fs less
      exact ih n fs (by omega) (by omega)

theorem weightSum_lt_divisorFuel (es : List Expr) : weightSum es < divisorFuel es := by
  unfold divisorFuel
  omega

theorem commonDivisor_agree (settings : Settings) {es : List Expr} {fuel : Nat}
    (enough : divisorFuel es ≤ fuel) :
    Traced.Agree (divisorWithin settings fuel es) (commonDivisor settings es) fun _ => True := by
  have low := weightSum_lt_divisorFuel es
  exact divisorWithin_agree settings fuel _ es (by omega) low

theorem divisorTerms_agree (settings : Settings) {es : List Expr} {fuel : Nat}
    (enough : divisorFuel es ≤ fuel) :
    Traced.Agree (searchTermsOfList (divisorWithin settings fuel) settings.indexWidth es)
      (divisorTerms settings es) fun _ => True := by
  have low := weightSum_lt_divisorFuel es
  refine searchTermsOfList_agree _ (fun fs less => ?_) le_rfl
  exact divisorWithin_agree settings fuel _ fs (by omega) (by omega)

end search

/-- Sums, products, quotients, common divisors and the terms searched for them all come to an end, of
whatever expressions: no run stops at the bound that it is given, and a greater bound gives the same
run. -/
theorem recursion_ends (iw : Int) (settings : Settings) :
    (∀ ops, sumOf iw ops ≠ .error .outOfFuel ∧
      ∀ fuel, fuelFor .sum ops ≤ fuel → sumWithin iw fuel ops = sumOf iw ops) ∧
    (∀ ops, productOf iw ops ≠ .error .outOfFuel ∧
      ∀ fuel, fuelFor .product ops ≤ fuel → productWithin iw fuel ops = productOf iw ops) ∧
    (∀ num den, quotRem iw num den ≠ .error .outOfFuel) ∧
    (∀ es, (commonDivisor settings es).outcome ≠ .error .outOfFuel ∧
      ∀ fuel, divisorFuel es ≤ fuel → divisorWithin settings fuel es = commonDivisor settings es) ∧
    ∀ es, (divisorTerms settings es).outcome ≠ .error .outOfFuel ∧
      ∀ fuel, divisorFuel es ≤ fuel →
        searchTermsOfList (divisorWithin settings fuel) settings.indexWidth es =
          divisorTerms settings es := by
  refine ⟨fun ops => ⟨?_, fun fuel enough => ?_⟩, fun ops => ⟨?_, fun fuel enough => ?_⟩,
    fun num den => ?_, fun es => ⟨?_, fun fuel enough => ?_⟩, fun es => ⟨?_, fun fuel enough => ?_⟩⟩
  · exact (sumOf_halts iw ops).ne_outOfFuel
  · exact (sumOf_agree iw enough).same
  · exact (productOf_halts iw ops).ne_outOfFuel
  · exact (productOf_agree iw enough).same
  · exact (divideBy_halts iw den num).ne_outOfFuel
  · exact (commonDivisor_agree settings le_rfl).halts.ne_outOfFuel
  · exact (commonDivisor_agree settings enough).same
  · exact (divisorTerms_agree settings le_rfl).halts.ne_outOfFuel
  · exact (divisorTerms_agree settings enough).same

end Expr

end ShapeRecovery
