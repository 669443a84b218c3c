import PVS.BddSimp.Cubes

/-! The subgoals of a sequent. -/

namespace PVS.BddSimp

open PVS.Library

variable {T : Terms}

/-! ### Literals -/

def Literal.eval (ρ : ℕ → Bool) : Literal → Bool
  | .true => Bool.true
  | .pos n => ρ n
  | .neg n => !ρ n

def Literal.var : Literal → Option ℕ
  | .true => none
  | .pos n => some n
  | .neg n => some n

/-- The truth of a conjunction. -/
def evalAll (ρ : ℕ → Bool) (conjuncts : List Literal) : Bool := conjuncts.all (Literal.eval ρ)

/-- The literals have different variables, all of them known. -/
structure Clean (S : Set ℕ) (conjuncts : List Literal) : Prop where
  nodup : (conjuncts.filterMap Literal.var).Nodup
  known : ∀ n ∈ conjuncts.filterMap Literal.var, n ∈ S

section Literals

variable {ρ : ℕ → Bool} {S : Set ℕ}

theorem mem_vars_of_mem {conjuncts : List Literal} {lit : Literal} {n : ℕ} (hlit : lit ∈ conjuncts)
    (hn : lit.var = some n) : n ∈ conjuncts.filterMap Literal.var :=
  List.mem_filterMap.2 ⟨lit, hlit, hn⟩

theorem Clean.sublist {conjuncts conjuncts' : List Literal} (h : Clean S conjuncts)
    (hsub : conjuncts'.Sublist conjuncts) : Clean S conjuncts' :=
  ⟨h.nodup.sublist (hsub.filterMap _), fun n hn => h.known n ((hsub.filterMap _).subset hn)⟩

/-- A variable does not come up with both signs. -/
theorem Clean.not_both {conjuncts : List Literal} (h : Clean S conjuncts) {n : ℕ}
    (hpos : .pos n ∈ conjuncts) (hneg : .neg n ∈ conjuncts) : False := by
  have hnodup := h.nodup
  induction conjuncts with
  | nil => cases hpos
  | cons lit conjuncts ih =>
    have hrest : Clean S conjuncts := h.sublist (List.sublist_cons_self _ _)
    have hmem : ∀ lit', lit'.var = some n → lit.var = some n → lit' ∈ conjuncts → False := by
      intro lit' hvar' hvar hlit'
      rw [List.filterMap_cons_some hvar, List.nodup_cons] at hnodup
      exact hnodup.1 (mem_vars_of_mem hlit' hvar')
    rcases List.mem_cons.1 hpos with heq | hpos
    · rcases List.mem_cons.1 hneg with heq' | hneg
      · exact absurd (heq.trans heq'.symm) (by rintro ⟨⟩)
      · exact hmem _ rfl (heq ▸ rfl) hneg
    · rcases List.mem_cons.1 hneg with heq' | hneg
      · exact hmem _ rfl (heq' ▸ rfl) hpos
      · exact ih hrest hpos hneg hrest.nodup

/-! ### Cubes -/

theorem translateBddCubeStar_spec {cube : Bdd} (hcube : cube.IsCube) (result : List Literal) :
    ∃ conjuncts, translateBddCubeStar cube result = result.reverse ++ conjuncts ∧
      conjuncts.filterMap Literal.var = cube.vars ∧ evalAll ρ conjuncts = cube.eval ρ ∧
        cube.vars.Nodup := by
  induction hcube generalizing result with
  | one => exact ⟨[], (List.append_nil _).symm, rfl, rfl, List.nodup_nil⟩
  | @pos v c hc hv ih =>
    obtain ⟨conjuncts, heq, hvars, heval, hnodup⟩ := ih (.pos v :: result)
    refine ⟨.pos v :: conjuncts, ?_, ?_, ?_, ?_⟩
    · rw [translateBddCubeStar, if_pos rfl, heq]
      simp
    · rw [List.filterMap_cons_some (show Literal.var (.pos v) = some v from rfl), hvars, Bdd.vars]
      simp [Bdd.vars]
    · rw [evalAll, List.all_cons, ← evalAll, heval, Bdd.eval, Literal.eval]
      cases ρ v <;> simp [Bdd.eval]
    · simpa [Bdd.vars] using ⟨hv, hnodup⟩
  | @neg v c hc hv ih =>
    obtain ⟨conjuncts, heq, hvars, heval, hnodup⟩ := ih (.neg v :: result)
    refine ⟨.neg v :: conjuncts, ?_, ?_, ?_, ?_⟩
    · rw [translateBddCubeStar, if_neg hc.ne_zero, if_pos rfl, heq]
      simp
    · rw [List.filterMap_cons_some (show Literal.var (.neg v) = some v from rfl), hvars, Bdd.vars]
      simp [Bdd.vars]
    · rw [evalAll, List.all_cons, ← evalAll, heval, Bdd.eval, Literal.eval]
      cases ρ v <;> simp [Bdd.eval]
    · simpa [Bdd.vars] using ⟨hv, hnodup⟩

theorem translateBddCube_spec {cube : Bdd} (hcube : cube.IsCube) (hvars : ∀ n ∈ cube.vars, n ∈ S) :
    Clean S (translateBddCube cube) ∧ evalAll ρ (translateBddCube cube) = cube.eval ρ := by
  cases cube with
  | zero => exact absurd rfl hcube.ne_zero
  | one =>
    refine ⟨⟨List.nodup_nil, ?_⟩, rfl⟩
    intro n hn
    cases hn
  | node v pos neg =>
    obtain ⟨conjuncts, heq, hvars', heval, hnodup⟩ := translateBddCubeStar_spec (ρ := ρ) hcube []
    rw [translateBddCube, heq]
    refine ⟨⟨?_, ?_⟩, heval⟩
    · rw [List.reverse_nil, List.nil_append, hvars']
      exact hnodup
    · rw [List.reverse_nil, List.nil_append, hvars']
      exact hvars

/-! ### Literals of recognizers -/

theorem mem_negLits {recLits : List ℕ} {conjuncts : List Literal} {n : ℕ} :
    n ∈ negLits recLits conjuncts ↔ .neg n ∈ conjuncts ∧ n ∈ recLits := by
  rw [negLits, List.mem_filterMap]
  constructor
  · rintro ⟨lit, hlit, hn⟩
    cases lit with
    | neg m =>
      rw [negLit] at hn
      split_ifs at hn with hmem
      cases hn
      exact ⟨hlit, hmem⟩
    | _ => cases hn
  · rintro ⟨hneg, hmem⟩
    exact ⟨.neg n, hneg, if_pos hmem⟩

theorem negLits_nodup {recLits : List ℕ} {conjuncts : List Literal}
    (h : (conjuncts.filterMap Literal.var).Nodup) : (negLits recLits conjuncts).Nodup := by
  refine h.sublist ?_
  rw [negLits]
  induction conjuncts with
  | nil => exact List.Sublist.slnil
  | cons lit conjuncts ih =>
    cases lit with
    | true =>
      rw [List.filterMap_cons_none rfl, List.filterMap_cons_none rfl]
      exact ih (by rwa [List.filterMap_cons_none rfl] at h)
    | pos n =>
      rw [List.filterMap_cons_none rfl, List.filterMap_cons_some (show Literal.var (.pos n) = some n from rfl)]
      rw [List.filterMap_cons_some (show Literal.var (.pos n) = some n from rfl), List.nodup_cons] at h
      exact (ih h.2).cons _
    | neg n =>
      rw [List.filterMap_cons_some (show Literal.var (.neg n) = some n from rfl)] at h ⊢
      rw [List.nodup_cons] at h
      by_cases hn : n ∈ recLits
      · rw [List.filterMap_cons_some (show negLit recLits (.neg n) = some n from if_pos hn)]
        exact (ih h.2).cons_cons _
      · rw [List.filterMap_cons_none (show negLit recLits (.neg n) = none from if_neg hn)]
        exact (ih h.2).cons _

/-- The literals that are not negations of the variables in `negs`. -/
def others (negs : List ℕ) (conjuncts : List Literal) : List Literal :=
  conjuncts.filter fun lit => !negs.any fun x => lit = .neg x

theorem others_cons_neg {negs : List ℕ} {conjuncts : List Literal} {n : ℕ} (hn : n ∈ negs) :
    others negs (.neg n :: conjuncts) = others negs conjuncts := by
  rw [others, List.filter_cons_of_neg]
  · rfl
  · simpa using hn

theorem others_cons {negs : List ℕ} {conjuncts : List Literal} {lit : Literal}
    (hlit : ∀ n ∈ negs, lit ≠ .neg n) : others negs (lit :: conjuncts) = lit :: others negs conjuncts := by
  rw [others, List.filter_cons_of_pos]
  · rfl
  · simpa using hlit

theorem others_sublist (negs : List ℕ) (conjuncts : List Literal) :
    (others negs conjuncts).Sublist conjuncts := List.filter_sublist

/-- A conjunction, with the negations of some variables apart. -/
theorem evalAll_others (negs : List ℕ) (conjuncts : List Literal) :
    evalAll ρ conjuncts = true ↔
      evalAll ρ (others negs conjuncts) = true ∧ ∀ n ∈ negs, .neg n ∈ conjuncts → ρ n = false := by
  simp only [evalAll, others, List.all_eq_true, List.mem_filter, Bool.not_eq_true',
    List.any_eq_false, decide_eq_true_eq]
  constructor
  · intro h
    refine ⟨fun lit hlit => h lit hlit.1, fun n _ hneg => ?_⟩
    simpa [Literal.eval] using h _ hneg
  · rintro ⟨hothers, hnegs⟩ lit hlit
    by_cases hex : ∃ n ∈ negs, lit = .neg n
    · obtain ⟨n, hn, rfl⟩ := hex
      simp [Literal.eval, hnegs n hn hlit]
    · exact hothers lit ⟨hlit, fun n hn heq => hex ⟨n, hn, heq⟩⟩

theorem replace_none (negs : List ℕ) (conjuncts : List Literal) :
    replaceNegLitsWithPosLit negs conjuncts none = others negs conjuncts := by
  induction conjuncts with
  | nil => rfl
  | cons lit conjuncts ih =>
    cases lit with
    | neg n =>
      rw [replaceNegLitsWithPosLit]
      split_ifs with hn
      · rw [others_cons_neg hn, ih]
        rfl
      · rw [others_cons, ih]
        rintro m hm ⟨⟩
        exact hn hm
    | _ =>
      rw [replaceNegLitsWithPosLit, others_cons, ih]
      · rintro m _ ⟨⟩
      · rintro m ⟨⟩

/-- The new literal stands where the first of the negations was. -/
theorem replace_some (negs : List ℕ) (x : ℕ) (conjuncts : List Literal) :
    (∃ front back, replaceNegLitsWithPosLit negs conjuncts (some x) = front ++ .pos x :: back ∧
      front ++ back = others negs conjuncts) ∨
    replaceNegLitsWithPosLit negs conjuncts (some x) = conjuncts ∧
      ∀ n ∈ negs, .neg n ∉ conjuncts := by
  induction conjuncts with
  | nil =>
    refine .inr ⟨rfl, fun n _ hn => ?_⟩
    cases hn
  | cons lit conjuncts ih =>
    have hskip : (∀ n ∈ negs, lit ≠ .neg n) →
        replaceNegLitsWithPosLit negs (lit :: conjuncts) (some x) =
          lit :: replaceNegLitsWithPosLit negs conjuncts (some x) →
        (∃ front back, replaceNegLitsWithPosLit negs (lit :: conjuncts) (some x) =
          front ++ .pos x :: back ∧ front ++ back = others negs (lit :: conjuncts)) ∨
        replaceNegLitsWithPosLit negs (lit :: conjuncts) (some x) = lit :: conjuncts ∧
          ∀ n ∈ negs, .neg n ∉ lit :: conjuncts := by
      intro hlit hreplace
      rcases ih with ⟨front, back, heq, hothers⟩ | ⟨heq, hnone⟩
      · refine .inl ⟨lit :: front, back, by rw [hreplace, heq]; rfl, ?_⟩
        rw [others_cons hlit, ← hothers]
        rfl
      · refine .inr ⟨by rw [hreplace, heq], fun n hn hmem => ?_⟩
        rcases List.mem_cons.1 hmem with heq' | hmem
        · exact hlit n hn heq'.symm
        · exact hnone n hn hmem
    cases lit with
    | neg n =>
      by_cases hn : n ∈ negs
      · refine .inl ⟨[], others negs conjuncts, ?_, (others_cons_neg hn).symm⟩
        rw [replaceNegLitsWithPosLit, if_pos hn, replace_none]
        rfl
      · refine hskip (by rintro m hm ⟨⟩; exact hn hm) ?_
        rw [replaceNegLitsWithPosLit, if_neg hn]
    | _ =>
      refine hskip (by rintro m _ ⟨⟩) ?_
      rw [replaceNegLitsWithPosLit]
      rintro m ⟨⟩

theorem evalAll_middle (front back : List Literal) (x : ℕ) :
    evalAll ρ (front ++ .pos x :: back) = true ↔ ρ x = true ∧ evalAll ρ (front ++ back) = true := by
  simp only [evalAll, List.all_append, List.all_cons, Bool.and_eq_true, Literal.eval]
  tauto

/-- The literal that takes the place of the negations is of another variable. -/
theorem not_mem_vars {names : List ℕ} {conjuncts : List Literal} {x : ℕ}
    (hpos : (names.any fun x => .pos x ∈ conjuncts) = false) (hx : x ∈ names)
    (hneg : x ∉ negLits names conjuncts) : x ∉ conjuncts.filterMap Literal.var := by
  intro hmem
  obtain ⟨lit, hlit, hvar⟩ := List.mem_filterMap.1 hmem
  cases lit with
  | true => cases hvar
  | pos n =>
    cases hvar
    have := List.any_eq_false.1 hpos x hx
    simp [hlit] at this
  | neg n =>
    cases hvar
    exact hneg (mem_negLits.2 ⟨hlit, hx⟩)

theorem Clean.insert {front back conjuncts : List Literal} (h : Clean S conjuncts)
    (hsub : (front ++ back).Sublist conjuncts) {x : ℕ} (hx : x ∈ S)
    (hnew : x ∉ conjuncts.filterMap Literal.var) : Clean S (front ++ .pos x :: back) := by
  have hclean := h.sublist hsub
  have hperm : ((front ++ .pos x :: back).filterMap Literal.var).Perm
      (x :: (front ++ back).filterMap Literal.var) :=
    (List.perm_middle (a := Literal.pos x)).filterMap Literal.var
  refine ⟨hperm.nodup_iff.2 (List.nodup_cons.2 ⟨?_, hclean.nodup⟩), fun n hn => ?_⟩
  · exact fun hmem => hnew ((hsub.filterMap _).subset hmem)
  · rcases List.mem_cons.1 (hperm.subset hn) with rfl | hn
    · exact hx
    · exact hclean.known n hn

variable {form : T.Arg × List ℕ} {conjuncts : List Literal}

theorem simplifyRecForm_clean (h : Clean S conjuncts) (hnames : ∀ n ∈ form.2, n ∈ S) :
    Clean S (simplifyRecForm form conjuncts) := by
  rw [simplifyRecForm]
  dsimp only
  split_ifs with hpos hlength
  · exact h.sublist List.filter_sublist
  · cases hfind : form.2.find? fun x => x ∉ negLits form.2 conjuncts with
    | none => exact h
    | some x =>
      have hx : x ∈ form.2 := List.mem_of_find?_eq_some hfind
      have hneg : x ∉ negLits form.2 conjuncts := by simpa using List.find?_some hfind
      rcases replace_some (negLits form.2 conjuncts) x conjuncts with
        ⟨front, back, heq, hothers⟩ | ⟨heq, -⟩
      · dsimp only
        rw [heq]
        refine h.insert (hothers ▸ others_sublist _ _) (hnames x hx) ?_
        exact not_mem_vars (Bool.eq_false_iff.2 hpos) hx hneg
      · dsimp only
        rwa [heq]
  · exact h

/-- A round of the clean-up does not change what a cube says of a model. -/
theorem simplifyRecForm_eval (h : Clean S conjuncts) {con : ℕ} {conOf : ℕ → ℕ}
    (hcon : con < T.size form.1) (hsep : Separates ρ (T.size form.1) con form.2 conOf) :
    evalAll ρ (simplifyRecForm form conjuncts) = evalAll ρ conjuncts := by
  rw [simplifyRecForm]
  dsimp only
  split_ifs with hpos hlength
  · -- the recognizer that is there excludes the others
    obtain ⟨x, hx, hmem⟩ := List.any_eq_true.1 hpos
    have hmem : Literal.pos x ∈ conjuncts := of_decide_eq_true hmem
    rw [Bool.eq_iff_iff, evalAll_others form.2 conjuncts]
    refine ⟨fun hothers => ⟨hothers, fun n hn hneg => ?_⟩, fun hall => hall.1⟩
    have hxtrue : ρ x = true := by
      have hkept : Literal.pos x ∈ others form.2 conjuncts := by
        simp [others, hmem]
      exact List.all_eq_true.1 hothers _ hkept
    refine hsep.exclusive hx hn ?_ hxtrue
    rintro rfl
    exact h.not_both hmem hneg
  · cases hfind : form.2.find? fun x => x ∉ negLits form.2 conjuncts with
    | none => rfl
    | some x =>
      have hx : x ∈ form.2 := List.mem_of_find?_eq_some hfind
      have hneg : x ∉ negLits form.2 conjuncts := by simpa using List.find?_some hfind
      have hsub : ∀ n ∈ x :: negLits form.2 conjuncts, n ∈ form.2 := by
        intro n hn
        rcases List.mem_cons.1 hn with rfl | hn
        · exact hx
        · exact (mem_negLits.1 hn).2
      rcases replace_some (negLits form.2 conjuncts) x conjuncts with
        ⟨front, back, heq, hothers⟩ | ⟨heq, -⟩
      · dsimp only
        rw [heq, Bool.eq_iff_iff, evalAll_middle, hothers,
          evalAll_others (negLits form.2 conjuncts) conjuncts, and_comm]
        refine and_congr_right fun _ => ?_
        constructor
        · intro hxtrue n hn _
          refine hsep.exclusive hx (mem_negLits.1 hn).2 ?_ hxtrue
          rintro rfl
          exact hneg hn
        · intro hnegs
          -- all constructors but one are excluded
          have hsize : (x :: negLits form.2 conjuncts).length = T.size form.1 := by
            rw [List.length_cons, hlength]
            omega
          obtain ⟨n, hn, hconN⟩ := hsep.covers hcon hsub
            (List.nodup_cons.2 ⟨hneg, negLits_nodup h.nodup⟩) hsize
          rcases List.mem_cons.1 hn with rfl | hn
          · rw [hsep.eval n hx, decide_eq_true hconN]
          · have hfalse := hnegs n hn (mem_negLits.1 hn).1
            rw [hsep.eval n (mem_negLits.1 hn).2, decide_eq_false_iff_not] at hfalse
            exact absurd hconN hfalse
      · dsimp only
        rw [heq]
  · rfl

theorem simplifyRecConjunctsStar_clean (forms : List (T.Arg × List ℕ)) (h : Clean S conjuncts)
    (hforms : ∀ form ∈ forms, ∀ n ∈ form.2, n ∈ S) :
    Clean S (simplifyRecConjunctsStar forms conjuncts) := by
  induction forms generalizing conjuncts with
  | nil => exact h
  | cons form forms ih =>
    exact ih (simplifyRecForm_clean h (hforms form List.mem_cons_self)) fun form' hform' =>
      hforms form' (List.mem_cons_of_mem _ hform')

theorem simplifyRecConjunctsStar_eval (forms : List (T.Arg × List ℕ)) (h : Clean S conjuncts)
    (hforms : ∀ form ∈ forms, ∀ n ∈ form.2, n ∈ S)
    (hsep : ∀ form ∈ forms, ∃ con conOf, con < T.size form.1 ∧
      Separates ρ (T.size form.1) con form.2 conOf) :
    evalAll ρ (simplifyRecConjunctsStar forms conjuncts) = evalAll ρ conjuncts := by
  induction forms generalizing conjuncts with
  | nil => rfl
  | cons form forms ih =>
    obtain ⟨con, conOf, hcon, hform⟩ := hsep form List.mem_cons_self
    rw [← simplifyRecForm_eval h hcon hform]
    exact ih (simplifyRecForm_clean h (hforms form List.mem_cons_self))
      (fun form' hform' => hforms form' (List.mem_cons_of_mem _ hform'))
      fun form' hform' => hsep form' (List.mem_cons_of_mem _ hform')

end Literals

/-! ### Formulas -/

section Formulas

variable {Q : TcEq T} {A : Set (Expr T)} (tccsNone : Bool)

theorem eval_makeNegation (M : Model Q) (e : Expr T) :
    M.eval (makeNegation Q tccsNone e) = !M.eval e := by
  rw [makeNegation]
  split_ifs with _ htrue hfalse
  · rw [M.expr_eq _ _ htrue]
    rfl
  · rw [M.expr_eq _ _ hfalse]
    rfl
  · rfl
  · rfl

/-- The formula of a literal is its negation. -/
theorem literalFormula_spec {s : BddState T} (lit : Literal)
    (hknown : ∀ n, lit.var = some n → ∃ e, s.bddPvs.lookup n = some e) :
    ∃ e, literalFormula Q tccsNone s.bddPvs lit = some e ∧ ∀ (M : Model Q) ρ,
      Agrees M.toInterpretation s ρ → M.eval e = !lit.eval ρ := by
  cases lit with
  | true => exact ⟨_, rfl, fun M _ _ => eval_makeNegation tccsNone M .true⟩
  | pos n =>
    obtain ⟨e, he⟩ := hknown n rfl
    refine ⟨makeNegation Q tccsNone e, by rw [literalFormula, he]; rfl, fun M ρ hρ => ?_⟩
    rw [eval_makeNegation, Literal.eval, hρ n e he]
  | neg n =>
    obtain ⟨e, he⟩ := hknown n rfl
    refine ⟨e, he, fun M ρ hρ => ?_⟩
    rw [Literal.eval, hρ n e he, Bool.not_not]

/-- The formulas are a disjunction, as those of a sequent are. -/
theorem conjunct_spec {s : BddState T} (conjuncts : List Literal)
    (hknown : ∀ n ∈ conjuncts.filterMap Literal.var, ∃ e, s.bddPvs.lookup n = some e) :
    ∃ es, conjuncts.mapM (literalFormula Q tccsNone s.bddPvs) = some es ∧ ∀ (M : Model Q) ρ,
      Agrees M.toInterpretation s ρ → (es.any fun e => M.eval e) = !evalAll ρ conjuncts := by
  induction conjuncts with
  | nil => exact ⟨[], rfl, fun M ρ _ => rfl⟩
  | cons lit conjuncts ih =>
    obtain ⟨e, he, heval⟩ := literalFormula_spec (Q := Q) tccsNone (s := s) lit
      fun n hn => hknown n (mem_vars_of_mem List.mem_cons_self hn)
    obtain ⟨es, hes, hall⟩ := ih fun n hn => by
      obtain ⟨lit', hlit', hvar⟩ := List.mem_filterMap.1 hn
      exact hknown n (mem_vars_of_mem (List.mem_cons_of_mem _ hlit') hvar)
    refine ⟨e :: es, ?_, fun M ρ hρ => ?_⟩
    · rw [List.mapM_cons, he, hes]
      rfl
    · rw [List.any_cons, heval M ρ hρ, hall M ρ hρ, evalAll, evalAll, List.all_cons, Bool.not_and]

theorem fromBddListToPvsList_spec (hA : NoTwins Q A) {s : BddState T} (hs : s.Valid Q A)
    (conjuncts : List (List Literal))
    (hclean : ∀ conj ∈ conjuncts, Clean { n | ∃ e, s.bddPvs.lookup n = some e } conj) :
    ∃ fmlas, fromBddListToPvsList Q tccsNone s conjuncts = some fmlas ∧ ∀ (M : Model Q) ρ,
      Agrees M.toInterpretation s ρ →
        ((fmlas.all fun es => es.any fun e => M.eval e) = !conjuncts.any (evalAll ρ)) := by
  have hforms : ∀ form ∈ s.recognizerForms, ∀ n ∈ form.2,
      n ∈ { n | ∃ e, s.bddPvs.lookup n = some e } := fun form hform n hn => hs.form_lookup hform hn
  rw [fromBddListToPvsList]
  induction conjuncts with
  | nil => exact ⟨[], rfl, fun M ρ _ => rfl⟩
  | cons conj conjuncts ih =>
    have hconj := hclean conj List.mem_cons_self
    obtain ⟨es, hes, heval⟩ := conjunct_spec (Q := Q) tccsNone
      (simplifyRecConjunctsStar s.recognizerForms conj)
      (simplifyRecConjunctsStar_clean _ hconj hforms).known
    obtain ⟨fmlas, hfmlas, hall⟩ := ih fun conj' hconj' => hclean conj' (List.mem_cons_of_mem _ hconj')
    refine ⟨es :: fmlas, ?_, fun M ρ hρ => ?_⟩
    · rw [List.map_cons, List.mapM_cons, hes, hfmlas]
      rfl
    · have hsep : ∀ form ∈ s.recognizerForms, ∃ con conOf, con < T.size form.1 ∧
          Separates ρ (T.size form.1) con form.2 conOf := by
        intro form hform
        obtain ⟨conOf, hsep⟩ := hs.separates hA hform
        exact ⟨_, conOf, (M.con form.1).2, hsep M ρ hρ⟩
      rw [List.all_cons, heval M ρ hρ, hall M ρ hρ, List.any_cons, Bool.not_or,
        simplifyRecConjunctsStar_eval _ hconj hforms hsep]

end Formulas

/-! ### Subgoals -/

section Run

variable {Q : TcEq T} {A : Set (Expr T)}

/-- A sequent is true if one of its formulas is. -/
def Holds (M : Interpretation T) (sforms : List (SForm T)) : Prop :=
  ∃ sform ∈ sforms, M.eval sform.formula = true

theorem holds_createBddSubgoal (M : Model Q) (sforms remaining : List (SForm T))
    (conjunct : List (Expr T)) :
    Holds M.toInterpretation (createBddSubgoal Q sforms remaining conjunct) ↔
      (conjunct.any fun e => M.eval e) = true ∨ Holds M.toInterpretation remaining := by
  have hform : ∀ fmla : Expr T, M.eval
      ((sforms.find? fun sform => Q.expr fmla sform.formula).getD ⟨none, fmla⟩).formula =
        M.eval fmla := by
    intro fmla
    cases hfind : sforms.find? fun sform => Q.expr fmla sform.formula with
    | none => rfl
    | some sform =>
      have hkey := List.find?_some hfind
      exact (M.expr_eq _ _ hkey).symm
  simp only [Holds, createBddSubgoal, List.mem_append, List.mem_map, List.any_eq_true]
  constructor
  · rintro ⟨sform, ⟨fmla, hfmla, rfl⟩ | hsform, heval⟩
    · exact .inl ⟨fmla, hfmla, (hform fmla).symm.trans heval⟩
    · exact .inr ⟨sform, hsform, heval⟩
  · rintro (⟨fmla, hfmla, heval⟩ | ⟨sform, hsform, heval⟩)
    · exact ⟨_, .inl ⟨fmla, hfmla, rfl⟩, (hform fmla).trans heval⟩
    · exact ⟨sform, .inr hsform, heval⟩

/-- What the rule is to do: it ends, and either leaves the sequent as it is or returns subgoals that
are equivalent to it in every model, each with the formulas that were not selected. -/
def Simplifies (Q : TcEq T) (sforms : List (SForm T)) (select : SForm T → Bool) :
    Option (Result T) → Prop
  | none => False
  | some .unchanged => True
  | some (.subgoals goals) =>
    (∀ M : Model Q, (∀ goal ∈ goals, Holds M.toInterpretation goal) ↔
      Holds M.toInterpretation sforms) ∧
    ∀ goal ∈ goals, sforms.filter (fun sform => !select sform) <:+ goal

theorem addBddSubgoals_simplifies {sforms : List (SForm T)} {select : SForm T → Bool}
    {fmlas : List (List (Expr T))}
    (hfmlas : ∀ M : Model Q, (fmlas.all fun es => es.any fun e => M.eval e) = true ↔
      Holds M.toInterpretation (sforms.filter select)) :
    Simplifies Q sforms select (some (addBddSubgoals Q sforms fmlas
      (sforms.filter fun sform => !select sform))) := by
  have hgoals : Simplifies Q sforms select (some (.subgoals
      (fmlas.map (createBddSubgoal Q sforms (sforms.filter fun sform => !select sform))))) := by
    refine ⟨fun M => ?_, fun goal hgoal => ?_⟩
    · have hsplit : Holds M.toInterpretation sforms ↔ Holds M.toInterpretation (sforms.filter select) ∨
          Holds M.toInterpretation (sforms.filter fun sform => !select sform) := by
        simp only [Holds, List.mem_filter]
        constructor
        · rintro ⟨sform, hsform, heval⟩
          cases hsel : select sform with
          | true => exact .inl ⟨sform, ⟨hsform, hsel⟩, heval⟩
          | false => exact .inr ⟨sform, ⟨hsform, by rw [hsel]; rfl⟩, heval⟩
        · rintro (⟨sform, hsform, heval⟩ | ⟨sform, hsform, heval⟩)
          · exact ⟨sform, hsform.1, heval⟩
          · exact ⟨sform, hsform.1, heval⟩
      rw [hsplit, ← hfmlas M, List.forall_mem_map]
      simp only [holds_createBddSubgoal, List.all_eq_true]
      constructor
      · intro h
        by_cases hrest : Holds M.toInterpretation (sforms.filter fun sform => !select sform)
        · exact .inr hrest
        · exact .inl fun es hes => (h es hes).resolve_right hrest
      · rintro (h | h) es hes
        · exact .inl (h es hes)
        · exact .inr h
    · obtain ⟨es, -, rfl⟩ := List.mem_map.1 hgoal
      exact List.suffix_append _ _
  rw [addBddSubgoals]
  split
  case h_1 goal heq =>
    split_ifs
    · trivial
    · rwa [heq] at hgoals
  case h_2 => exact hgoals

/-- Without twins the rule does what it is to do. -/
theorem runBddsimp_simplifies (hA : NoTwins Q A) (P : BddPackage) (tccsNone irredundant : Bool)
    (sforms : List (SForm T)) (select : SForm T → Bool)
    (hatoms : ∀ sform ∈ sforms.filter select, ∀ e ∈ sform.formula.atoms, e ∈ A) :
    Simplifies Q sforms select (runBddsimp Q P tccsNone irredundant sforms select) := by
  rw [runBddsimp]
  by_cases hempty : (sforms.filter select).isEmpty = true
  · rw [if_pos hempty]
    trivial
  · rw [if_neg hempty]
    have hs₀ : (⟨[], [], 0, []⟩ : BddState T).Valid Q A := by
      refine ⟨?_, ?_, ?_⟩
      · intro ent hent
        cases hent
      · intro n e hn
        cases hn
      · intro form hform
        cases hform
    obtain ⟨bdd, s, hmake, hs, -, hvars, heval⟩ := makeSformsBdd_spec (P := P) hA
      (sforms.filter select) none _ hs₀ hatoms (by rintro _ ⟨⟩)
      (.inl fun hnil => hempty (by rw [hnil]; rfl))
    have hcube : ∀ cube ∈ P.sumOfCubes bdd irredundant, ∀ n ∈ cube.vars,
        n ∈ { n | ∃ e, s.bddPvs.lookup n = some e } :=
      fun cube hcube n hn => hvars n (P.vars_sumOfCubes bdd irredundant cube hcube hn)
    obtain ⟨fmlas, hfmlas, hall⟩ := fromBddListToPvsList_spec tccsNone hA hs
      ((P.sumOfCubes bdd irredundant).map translateBddCube) (by
        intro conj hconj
        obtain ⟨cube, hmem, rfl⟩ := List.mem_map.1 hconj
        exact (translateBddCube_spec (ρ := fun _ => true) (P.isCube _ _ cube hmem)
          (hcube cube hmem)).1)
    simp only [bddsimpConjuncts, hmake, Option.bind_eq_bind, Option.bind_some, hfmlas]
    refine addBddSubgoals_simplifies fun M => ?_
    -- the variables have the truth of their atoms
    let ρ : ℕ → Bool := fun n => ((s.bddPvs.lookup n).map M.eval).getD true
    have hρ : Agrees M.toInterpretation s ρ := by
      intro n e hn
      simp only [ρ, hn]
      rfl
    have hcubes : ((P.sumOfCubes bdd irredundant).map translateBddCube).any (evalAll ρ) =
        bdd.eval ρ := by
      rw [← P.eval_sumOfCubes bdd irredundant ρ, List.any_map, Bool.eq_iff_iff, List.any_eq_true,
        List.any_eq_true]
      have hcubeEval : ∀ cube ∈ P.sumOfCubes bdd irredundant,
          evalAll ρ (translateBddCube cube) = cube.eval ρ :=
        fun cube hmem => (translateBddCube_spec (P.isCube _ _ cube hmem) (hcube cube hmem)).2
      constructor
      · rintro ⟨cube, hmem, htrue⟩
        exact ⟨cube, hmem, (hcubeEval cube hmem).symm.trans htrue⟩
      · rintro ⟨cube, hmem, htrue⟩
        exact ⟨cube, hmem, (hcubeEval cube hmem).trans htrue⟩
    rw [hall M ρ hρ, hcubes, Bool.not_eq_true', ← Bool.not_eq_true, heval M ρ hρ]
    simp only [Axiom, AllFalse, Holds, Option.mem_def, reduceCtorEq, false_implies, implies_true,
      true_and, not_forall, Bool.not_eq_false, exists_prop]

end Run

end PVS.BddSimp
