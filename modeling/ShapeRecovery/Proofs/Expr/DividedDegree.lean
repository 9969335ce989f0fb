import ShapeRecovery.Proofs.Expr.Degree
import ShapeRecovery.Proofs.Expr.Divided

namespace ShapeRecovery.Expr

/-- `r` has no greater degree than `e` in any unknown value. -/
structure NoLarger (e r : Expr) : Prop where
  degree : ∀ s b, degree s b r ≤ degree s b e
  factor : ∀ s b, factorDegree s b r ≤ factorDegree s b e
  residual : ∀ s b, residualDegree s b r ≤ residualDegree s b e

variable {s : Symbol} {b : Int} {e f g r : Expr} {es fs : List Expr} {l : Loop} {n : Nat} {iw w v : Int}

namespace NoLarger

theorem refl (e : Expr) : NoLarger e e := ⟨fun _ _ => le_rfl, fun _ _ => le_rfl, fun _ _ => le_rfl⟩

theorem trans (first : NoLarger e f) (second : NoLarger f g) : NoLarger e g where
  degree s b := (second.degree s b).trans (first.degree s b)
  factor s b := (second.factor s b).trans (first.factor s b)
  residual s b := (second.residual s b).trans (first.residual s b)

theorem const (e : Expr) (v w : Int) : NoLarger e (.const v w) :=
  ⟨fun _ _ => Nat.zero_le _, fun _ _ => Nat.zero_le _, fun _ _ => Nat.zero_le _⟩

theorem ofInt (e : Expr) (run : Expr.ofInt v w = .ok r) : NoLarger e r := by
  obtain ⟨u, -, rfl⟩ := ofInt_cases run
  exact .const e u w

/-- Only an unknown value counts less as a factor than by itself. -/
theorem of_node (other : ∀ s b, e ≠ unknown s b) (degree : ∀ s b, Expr.degree s b r ≤ Expr.degree s b e)
    (residual : ∀ s b, residualDegree s b r ≤ residualDegree s b e) : NoLarger e r where
  degree := degree
  factor s b := by
    rw [factorDegree_of_ne (other s b)]
    exact (factorDegree_le r).trans (degree s b)
  residual := residual

/-- What is treated as a whole has nothing to be divided by. -/
theorem of_whole (other : ∀ s b, e ≠ unknown s b)
    (whole : ∀ s b, residualDegree s b e = Expr.degree s b e)
    (degree : ∀ s b, Expr.degree s b r ≤ Expr.degree s b e) : NoLarger e r :=
  .of_node other degree fun s b => ((residualDegree_le r).trans (degree s b)).trans (whole s b).ge

theorem sum (each : List.Forall₂ NoLarger es fs) (run : sumOf iw fs = .ok r) : NoLarger (.sum es) r := by
  apply of_node (by simp)
  · intro s b
    refine (graded_degree s b _).sumOf iw fs r (fun f hf => ?_) run
    obtain ⟨e, he, less⟩ := exists_of_forall₂ each hf
    exact (less.degree s b).trans (degree_le_of_term he)
  · intro s b
    refine (graded_residualDegree s b _).sumOf iw fs r (fun f hf => ?_) run
    obtain ⟨e, he, less⟩ := exists_of_forall₂ each hf
    exact (less.residual s b).trans (residualDegree_sum_le.mp le_rfl e he)

theorem sum_map_le {μ : Expr → Nat} (each : List.Forall₂ (fun e f => μ f ≤ μ e) es fs) :
    (fs.map μ).sum ≤ (es.map μ).sum := by
  induction each with
  | nil => exact le_rfl
  | cons here _ ih => simpa using Nat.add_le_add here ih

theorem product (each : List.Forall₂ NoLarger es fs) (run : productOf iw fs = .ok r) :
    NoLarger (.product es) r := by
  apply of_node (by simp)
  · intro s b
    refine (graded_degree s b _).productOf iw fs r ?_ run
    rw [degree_product]
    exact sum_map_le (each.imp fun e f less => less.degree s b)
  · intro s b
    refine (graded_residualDegree s b _).productOf iw fs r (.inl ?_) run
    rw [residualDegree_product]
    exact sum_map_le (each.imp fun e f less => less.factor s b)

theorem recur {a a' c c' : Expr} (first : NoLarger a a') (second : NoLarger c c') (l : Loop) :
    NoLarger (recurrence a c l) (Expr.recur a' c' l) := by
  apply of_node (by simp)
  · intro s b
    exact (graded_degree s b _).recur l ((first.degree s b).trans (le_max_left ..))
      ((second.degree s b).trans (le_max_right ..))
  · intro s b
    exact (graded_residualDegree s b _).recur l ((first.residual s b).trans (le_max_left ..))
      ((second.residual s b).trans (le_max_right ..))

theorem quotient {a a' c c' : Expr} (first : NoLarger a a') (second : NoLarger c c')
    (run : unsignedQuotient a' c' = .ok r) : NoLarger (.quotient a c) r := by
  refine of_whole (by simp) (fun _ _ => rfl) fun s b => ?_
  have num := first.degree s b
  have den := second.degree s b
  simp only [Expr.degree]
  rcases unsignedQuotient_cases run with ⟨-, rfl⟩ | ⟨-, rfl⟩ | ⟨-, -, v, w, made⟩ | rfl
  · exact Nat.zero_le _
  · omega
  · exact ((ofInt (.const 0 w) made).degree s b).trans (Nat.zero_le _)
  · simp only [Expr.degree]
    omega

theorem cast {kind : CastKind} {a a' : Expr} (inner : NoLarger a a')
    (run : convert kind w a' = .ok r) : NoLarger (.cast kind a v) r := by
  refine of_whole (by simp) (fun _ _ => rfl) fun s b => ?_
  -- Casts of the kind are opened before one is put around what they hold.
  have kept : Expr.degree s b r ≤ Expr.degree s b a' ∨
      ∃ f w, r = .cast kind f w ∧ Expr.degree s b f ≤ Expr.degree s b a' := by
    refine convert_induction (P := fun f => Expr.degree s b f ≤ Expr.degree s b a' ∨
      ∃ g w, f = .cast kind g w ∧ Expr.degree s b g ≤ Expr.degree s b a') (.inl le_rfl) ?_ ?_ ?_ run
    · intro v w u r _ made
      exact .inl (((ofInt (.const 0 w) made).degree s b).trans (Nat.zero_le _))
    · rintro f w (low | ⟨g, w', same, low⟩)
      · simp only [Expr.degree] at low
        exact .inl (by omega)
      · cases same
        exact .inl low
    · rintro f (low | ⟨g, w', rfl, -⟩) _ other _
      · exact .inr ⟨f, _, rfl, low⟩
      · exact absurd rfl (other g w')
  have low := inner.degree s b
  rcases kept with kept | ⟨f, w', rfl, kept⟩
  all_goals
    simp only [Expr.degree]
    omega

theorem maximum (signed : Bool) (each : List.Forall₂ NoLarger es fs)
    (run : Expr.maximum signed iw fs = .ok r) :
    NoLarger (.nary (if signed then .signedMax else .unsignedMax) es) r := by
  refine of_whole (by cases signed <;> simp) (by cases signed <;> exact fun _ _ => rfl) fun s b => ?_
  have node (gs : List Expr) : Expr.degree s b (.nary (if signed then .signedMax else .unsignedMax) gs) =
      2 * (gs.map (Expr.degree s b)).foldr max 0 := by
    cases signed <;> exact congrArg (fun ds => 2 * ds.foldr max 0) (degrees_eq_map gs)
  rw [node]
  generalize bound : (es.map (Expr.degree s b)).foldr max 0 = n
  have operands : ∀ f ∈ fs, Expr.degree s b f ≤ n := by
    intro f hf
    obtain ⟨e, he, less⟩ := exists_of_forall₂ each hf
    exact (less.degree s b).trans (foldr_max_le.mp bound.le _ (List.mem_map_of_mem he))
  rcases maximum_cases rfl run with rfl | ⟨top, constant, run⟩
  · exact Nat.zero_le _
  have kept : ∀ f ∈ distinctOthers
      (flatten (if signed then .signedMax else .unsignedMax) fs) [] ++ top, Expr.degree s b f ≤ n := by
    refine List.forall_mem_append.mpr ⟨fun f hf => ?_, fun f hf => ?_⟩
    · have mem : f ∈ flatten (if signed then .signedMax else .unsignedMax) fs := by
        simpa using (mem_distinctOthers.mp hf).imp_right And.left
      rcases mem_flatten mem with ⟨mem, -⟩ | ⟨gs, mem, part⟩
      · exact operands f mem
      · have whole := operands _ mem
        rw [node] at whole
        have here := foldr_max_le.mp le_rfl _ (List.mem_map_of_mem (f := Expr.degree s b) part)
        omega
    · rcases constant with rfl | ⟨v, w, rfl⟩
      · cases hf
      · rw [List.mem_singleton.mp hf]
        exact Nat.zero_le _
  rcases arranged_of_ordered run with single | ⟨-, gs, perm, rfl⟩
  · have here := kept r (by simp [single])
    omega
  · rw [node]
    have low : (gs.map (Expr.degree s b)).foldr max 0 ≤ n :=
      foldr_max_le.mpr (List.forall_mem_map.mpr fun g hg => kept g (perm.mem_iff.mp hg))
    omega

/-- A node that is made anew over operands of no greater degree has no greater degree. -/
theorem withOperands {op : Nary} (old : List Expr) (each : List.Forall₂ NoLarger es fs)
    (run : Expr.withOperands iw (.nary op old) fs = .ok r) : NoLarger (.nary op es) r := by
  cases op with
  | sum => exact sum each run
  | product => exact product each run
  | signedMax => exact maximum true each run
  | unsignedMax => exact maximum false each run

end NoLarger

/-- A replacement, or what is rebuilt where there is none. -/
theorem substitute_run_cases {env : Expr → Option Expr} {P : Expr → Prop}
    (replaced : ∀ c, env e = some c → P c)
    (rebuilt : env e = none → substitute iw env e = .ok r → P r)
    (run : substitute iw env e = .ok r) : P r := by
  cases known : env e with
  | none => exact rebuilt known run
  | some c =>
    unfold substitute at run
    rw [known] at run
    cases run
    exact replaced r known

/-- Constants in the places of subexpressions raise no degree. -/
theorem NoLarger.substitute {env : Expr → Option Expr}
    (constants : ∀ e c, env e = some c → ∃ v w, c = .const v w) (typed : HasBits e w)
    (run : substitute iw env e = .ok r) : NoLarger e r := by
  have replaced (e c : Expr) (known : env e = some c) : NoLarger e c := by
    obtain ⟨v, w, rfl⟩ := constants e c known
    exact .const e v w
  induction typed using HasBits.cast_induction generalizing r with
  | const pos inRange =>
    refine substitute_run_cases (replaced _) (fun fresh run => ?_) run
    simp only [Expr.substitute, fresh, Except.ok.injEq] at run
    exact run ▸ .refl _
  | unknown pos =>
    refine substitute_run_cases (replaced _) (fun fresh run => ?_) run
    simp only [Expr.substitute, fresh, Except.ok.injEq] at run
    exact run ▸ .refl _
  | @nary op es w several parts ih =>
    refine substitute_run_cases (replaced _) (fun fresh run => ?_) run
    cases es with
    | nil => simp at several
    | cons e es =>
      simp only [Expr.substitute, fresh, substituteList_eq_mapM] at run
      obtain ⟨fs, hfs, run⟩ := bind_eq_ok.mp run
      exact withOperands _ (forall₂_of_mapM hfs ih) run
  | @quotient a c w first second iha ihb =>
    refine substitute_run_cases (replaced _) (fun fresh run => ?_) run
    simp only [Expr.substitute, fresh] at run
    obtain ⟨a', ha, run⟩ := bind_eq_ok.mp run
    obtain ⟨c', hc, run⟩ := bind_eq_ok.mp run
    exact quotient (iha ha) (ihb hc) run
  | @cast kind a v w arg admits other ih =>
    refine substitute_run_cases (replaced _) (fun fresh run => ?_) run
    simp only [Expr.substitute, fresh] at run
    obtain ⟨a', ha, run⟩ := bind_eq_ok.mp run
    exact cast (ih ha) run
  | @recurrence a c l w start step iha ihb =>
    refine substitute_run_cases (replaced _) (fun fresh run => ?_) run
    simp only [Expr.substitute, fresh] at run
    obtain ⟨a', ha, run⟩ := bind_eq_ok.mp run
    obtain ⟨c', hc, run⟩ := bind_eq_ok.mp run
    cases run
    exact recur (iha ha) (ihb hc) l

section division

variable {num den : Expr} {qr : Expr × Expr}

theorem NoLarger.immediate (run : immediateDivision? w num den = .ok (some qr)) : NoLarger num qr.1 := by
  rcases immediateDivision_cases run with ⟨-, hq, -⟩ | ⟨-, hq, -⟩ | ⟨-, same, -⟩
  · exact .ofInt num hq
  · exact .ofInt num hq
  · exact same ▸ .refl num

/-- The quotient by an unknown value has one in the place of this value, or is zero. -/
private theorem NoLarger.byUnknown (hnum : HasBits num w) (run : divideByUnknown iw w num den v = .ok qr) :
    NoLarger num qr.1 := by
  have constants {c : Expr} {m : Int} (made : Expr.ofInt m v = .ok c) :
      ∀ e r, lookup [(den, c)] e = some r → ∃ u b, r = .const u b := by
    intro e r known
    obtain ⟨u, -, rfl⟩ := ofInt_cases made
    exact ⟨u, v, (lookup_single known).2⟩
  obtain ⟨nought, hnought, run⟩ := bind_eq_ok.mp run
  obtain ⟨r, hr, run⟩ := bind_eq_ok.mp run
  split at run
  · obtain ⟨unit, hunit, run⟩ := bind_eq_ok.mp run
    obtain ⟨q, hq, run⟩ := bind_eq_ok.mp run
    obtain ⟨z, hz, made⟩ := bind_eq_ok.mp run
    cases made
    exact .substitute (constants hunit) hnum hq
  · rw [indivisible_eq hnum.pos] at run
    cases run
    exact .const num 0 w

/-- The quotient of a division by what is not taken apart has no greater degree than the dividend. -/
theorem NoLarger.divideByAtom (hden : HasBits den v) (hnum : HasBits num w)
    (run : divideByAtom iw den num = .ok qr) : NoLarger num qr.1 := by
  have of_later {num : Expr} {w : Int} {qr : Expr × Expr} (hnum : HasBits num w)
      (run : Expr.divideByAtom iw den num = .ok qr)
      (later : immediateDivision? w num den = .ok none → NoLarger num qr.1) : NoLarger num qr.1 :=
    (divideByAtom_run_cases hnum run).elim .immediate later
  induction hnum using HasBits.parts_induction generalizing qr with
  | @const n w pos inRange =>
    refine of_later (.const pos inRange) run fun later => ?_
    cases den with
    | const d b =>
      by_cases nought : d = 0
      · subst nought
        cases (divideByAtom_by_zero pos later).symm.trans run
        exact .const _ 0 w
      · cases (divideByAtom_consts pos later nought).symm.trans run
        exact .const _ _ w
    | _ =>
      cases (divideByAtom_const pos later (by simp)).symm.trans run
      exact .const _ 0 w
  | @sum es w several parts ih =>
    refine of_later (.nary several parts) run fun later => ?_
    rw [divideByAtom_sum_later (.nary several parts) later, divideTerms_eq_mapM] at run
    obtain ⟨qrs, hqrs, run⟩ := bind_eq_ok.mp run
    obtain ⟨q, hq, run⟩ := bind_eq_ok.mp run
    obtain ⟨r, hr, made⟩ := bind_eq_ok.mp run
    cases made
    refine .sum (List.forall₂_map_right_iff.mpr ?_) hq
    exact forall₂_of_mapM hqrs fun e he qr run => ih e he run
  | @product es w several parts ih =>
    refine of_later (.nary several parts) run fun later => ?_
    rw [divideByAtom_product_later (.nary several parts) later] at run
    obtain ⟨o, divided, run⟩ := bind_eq_ok.mp run
    cases o with
    | some qs =>
      obtain ⟨q, hq, run⟩ := bind_eq_ok.mp run
      obtain ⟨r, hr, made⟩ := bind_eq_ok.mp run
      cases made
      obtain ⟨before, e, after, q', rest, rfl, rfl, here⟩ := divideFactor_run divided
      have same (es : List Expr) : List.Forall₂ NoLarger es es :=
        List.forall₂_same.mpr fun e _ => .refl e
      exact .product (List.rel_append (same before) (.cons (ih e (by simp) here) (same after))) hq
    | none =>
      cases den with
      | unknown s bits => exact .byUnknown (.nary several parts) run
      | _ =>
        rw [indivisible_eq (parts.pos (List.ne_nil_of_length_pos (by omega)))] at run
        cases run
        exact .const _ 0 w
  | @recurrence a b l w start step first second =>
    refine of_later (.recurrence start step) run fun later => ?_
    obtain ⟨qa, hqa, -⟩ := divideByAtom_spec iw start hden
    obtain ⟨qb, hqb, -⟩ := divideByAtom_spec iw step hden
    cases (divideByAtom_recurrence (.recurrence start step) later hqa hqb).symm.trans run
    exact (first hqa).recur (second hqb) l
  | @leaf e w typed whole =>
    refine of_later typed run fun later => ?_
    cases (divideByAtom_leaf typed whole later).symm.trans run
    exact .const e 0 w

/-- The quotient of a division has no greater degree than the dividend. -/
theorem NoLarger.divideBy (hden : HasBits den v) (hnum : HasBits num w)
    (run : Expr.divideBy iw den num = .ok qr) : NoLarger num qr.1 := by
  induction hden using HasBits.divisor_induction generalizing num qr with
  | atom typed whole =>
    rw [divideBy_atom whole] at run
    exact .divideByAtom typed hnum run
  | @product es v several parts ih =>
    obtain ⟨o, found⟩ := immediateDivision_total hnum.pos num (.product es)
    cases o with
    | some now =>
      cases (divideBy_now hnum found).symm.trans run
      exact .immediate found
    | none =>
      rw [divideBy_product_later hnum found] at run
      obtain ⟨o, divided, run⟩ := bind_eq_ok.mp run
      cases o with
      | some q =>
        obtain ⟨r, hr, made⟩ := bind_eq_ok.mp run
        cases made
        refine divideByAll_keeps (fun f hf num' qr hnum' less run => ?_) hnum (.refl num) divided
        exact ⟨(Divides.of_run hnum' (parts f hf) run).quotient, less.trans (ih f hf hnum' run)⟩
      | none =>
        rw [indivisible_eq hnum.pos] at run
        cases run
        exact .const num 0 w

end division

end ShapeRecovery.Expr
