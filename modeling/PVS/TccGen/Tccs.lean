import PVS.TccGen.Closure
import PVS.TccGen.Contexts

/-! TCCs are closures of their contexts. -/

namespace PVS.TccGen

variable {T : Terms}

/-- `add-tcc-conditions*` and the closure, where `next` is the number of the next object. -/
def addTccConditions (Q : Checker T) (expr : Formula T) (conditions : List (Condition T)) (next : ℕ) :
    Option (Formula T) :=
  (addTccConditionsStar Q expr conditions [] [] next).bind fun r => universalClosure Q r.1 r.2

/-- Conditions, innermost first, and a conclusion. They mention the bindings outside of them, and
declarations of which each mentions older ones only. -/
structure TccContext (T : Terms) where
  conditions : List (Condition T)
  conclusion : Formula T
  globals : List (Binding T)
  next : ℕ
  ok : LoopOk conditions conclusion [] [] next
  known : (∀ c ∈ conditions, c.Known globals) ∧ conclusion.Known globals
  mentioned : ∀ u, Allows Formula.frees Condition.frees conditions conclusion [] u →
    (∃ b, .binding b ∈ conditions ∧ b.uid = u) ∨ ∃ g ∈ globals, g.uid = u
  older : ∀ g ∈ globals, ∀ u ∈ T.tyFrees g.type, u < g.uid ∧ ∃ g' ∈ globals, g'.uid = u
  types : ∀ g ∈ globals, ∀ u ∈ T.tyBound g.type, u < next ∧ ∀ g' ∈ globals, g'.uid ≠ u
  apart : ∀ g ∈ globals, g.uid < next ∧ ¬ Allows Formula.bound Condition.bound conditions conclusion [] g.uid

namespace TccContext

variable (C : TccContext T) (Q : Checker T)

/-- For all values of the bindings, if every condition holds then the conclusion does. -/
def Source (M : Interpretation T) (env : ℕ → M.Val) : Prop :=
  M.HoldsUnder C.conditions.reverse (M.Holds C.conclusion) env

/-- Each condition is well typed given those outside of it, and so is the conclusion. -/
def WellTyped (M : Interpretation T) (env : ℕ → M.Val) : Prop :=
  M.MeaningfulUnder C.conditions.reverse (M.Meaningful C.conclusion) env

/-- The conditions outside of all bindings are well typed from the innermost to the outermost, too. -/
def Reversible : Prop :=
  ∀ (M : Model Q) (env : ℕ → M.Val), C.WellTyped M.toInterpretation env →
    M.MeaningfulAnd (outerAntes C.conditions []).reverse env

def Valid : Prop := ∀ (M : Model Q) (env : ℕ → M.Val), C.Source M.toInterpretation env

/-- The formula for the context, and its closure over the variables that are left. -/
structure IsTcc (form : Formula T) (fvs : List (Binding T)) (tcc : Formula T) : Prop where
  holds : ∀ (M : Model Q) env, M.Holds form env ↔ C.Source M.toInterpretation env
  wellTyped : ∀ (M : Model Q) env, C.WellTyped M.toInterpretation env → M.Meaningful form env
  frees : ∀ u ∈ form.frees, ∃ g ∈ C.globals, g.uid = u
  closure : ClosureResult Q form fvs tcc

def Correct : Prop :=
  ∃ form next fvs tcc, addTccConditionsStar Q C.conclusion C.conditions [] [] C.next = some (form, next) ∧
    universalClosure Q form next = some tcc ∧
      addTccConditions Q C.conclusion C.conditions C.next = some tcc ∧ C.IsTcc Q form fvs tcc

end TccContext

/-! ### The declarations outside -/

/-- A formula mentions the declarations that the types of those that it mentions mention. -/
theorem Formula.Known.freevars {globals : List (Binding T)} {f : Formula T} (h : f.Known globals)
    (hclosed : ∀ g ∈ globals, ∀ u ∈ T.tyFrees g.type, ∃ g' ∈ globals, g'.uid = u)
    (hapart : ∀ g ∈ globals, g.uid ∉ f.bound) : ∀ d ∈ f.freevars, ∀ g ∈ globals, d.uid = g.uid →
      d = g ∧ T.tyFrees g.type ⊆ f.frees := by
  induction f with
  | true => simp [Formula.freevars]
  | false => simp [Formula.freevars]
  | atom a => exact h
  | not f ih => exact ih h hapart
  | forAll bs f ih =>
    have hbody : ∀ d ∈ f.freevars, ∀ g ∈ globals, d.uid = g.uid → d = g ∧ T.tyFrees g.type ⊆ f.frees :=
      ih h.2 fun g hg hmem => hapart g hg (mem_boundList.2 (.inr hmem))
    have hbinding : ∀ u, (∃ g ∈ globals, g.uid = u) → ∀ b ∈ bs, b.uid ≠ u := by
      rintro u ⟨g, hg, rfl⟩ b hb heq
      exact hapart g hg (mem_boundList.2 (.inl ⟨b, hb, .inl heq⟩))
    intro d hd g hg heq
    rcases List.mem_append.1 hd with hd | hd
    · obtain ⟨b, hb, hdb⟩ := mem_types_of_freevarsList hd
      obtain ⟨rfl, hsub⟩ := h.1 b hb d hdb g hg heq
      refine ⟨rfl, fun u hu => ?_⟩
      exact mem_freesList_of_type hb (hsub u hu) (hbinding u (hclosed d hg u hu))
    · obtain ⟨hd, -⟩ := List.mem_filter.1 (List.mem_filter.1 hd).1
      obtain ⟨rfl, hsub⟩ := hbody d hd g hg heq
      exact ⟨rfl, fun u hu => mem_freesList.2 (.inr ⟨hsub hu, hbinding u (hclosed d hg u hu)⟩)⟩
  | _ f g ihf ihg =>
    have hf := ihf h.1 fun g' hg' hmem => hapart g' hg' (.inl hmem)
    have hg := ihg h.2 fun g' hg' hmem => hapart g' hg' (.inr hmem)
    intro d hd g' hg' heq
    rcases List.mem_append.1 hd with hd | hd
    · obtain ⟨rfl, hsub⟩ := hf d hd g' hg' heq
      exact ⟨rfl, fun u hu => .inl (hsub hu)⟩
    · obtain ⟨rfl, hsub⟩ := hg d (List.mem_filter.1 hd).1 g' hg' heq
      exact ⟨rfl, fun u hu => .inr (hsub hu)⟩

namespace TccContext

variable {Q : Checker T} {C : TccContext T} {form : Formula T} {next : ℕ}

/-- No declaration outside is bound in the formula. -/
theorem not_bound (h : LoopResult Q C.conditions C.conclusion [] [] C.next form next) {g : Binding T}
    (hg : g ∈ C.globals) : g.uid ∉ form.bound := by
  intro hmem
  rcases h.bound _ hmem with hallows | ⟨b, hb, heq⟩ | ⟨hle, -⟩
  · exact (C.apart g hg).2 hallows
  · exact ((C.known.1 _ hb).2 g hg).1 heq
  · exact Nat.not_lt.2 hle (C.apart g hg).1

theorem frees_globals (h : LoopResult Q C.conditions C.conclusion [] [] C.next form next) :
    ∀ u ∈ form.frees, ∃ g ∈ C.globals, g.uid = u := by
  intro u hu
  obtain ⟨hallows, hnot⟩ := h.frees u hu
  rcases C.mentioned u hallows with ⟨b, hb, heq⟩ | hg
  · exact absurd heq (hnot b hb)
  · exact hg

theorem closureOk (h : LoopResult Q C.conditions C.conclusion [] [] C.next form next) :
    ClosureOk form next := by
  have hknown : form.Known C.globals := by
    refine h.known C.globals ?_ (fun g hg => (C.apart g hg).1) C.known.1 ?_ C.known.2
    · intro entry hentry
      cases hentry
    · intro f hf
      cases hf
  have hfreevars := hknown.freevars (fun g hg u hu => (C.older g hg u hu).2) fun g hg => not_bound h hg
  -- every free variable is one of the declarations
  have hglobal : ∀ d ∈ form.freevars, d ∈ C.globals ∧ T.tyFrees d.type ⊆ form.frees := by
    intro d hd
    obtain ⟨g, hg, heq⟩ := frees_globals h d.uid (form.freevars_subset d hd)
    obtain ⟨rfl, hsub⟩ := hfreevars d hd g hg heq.symm
    exact ⟨hg, hsub⟩
  have hapart : ∀ u ∈ form.frees, u ∉ form.bound := by
    intro u hu
    obtain ⟨g, hg, rfl⟩ := frees_globals h u hu
    exact not_bound h hg
  refine ⟨fun d hd u hu => (C.older d (hglobal d hd).1 u hu).1, fun d hd u hu => ?_, fun d hd => ?_,
    fun d hd u hu => ?_, fun u hu => ?_, hapart⟩
  · have hfree := (hglobal d hd).2 hu
    exact (Formula.mem_freevars (hapart u hfree)).2 hfree
  · exact ⟨lt_of_lt_of_le (C.apart d (hglobal d hd).1).1 h.le, not_bound h (hglobal d hd).1⟩
  · obtain ⟨hlt, hne⟩ := C.types d (hglobal d hd).1 u hu
    exact ⟨lt_of_lt_of_le hlt h.le, fun e he => hne e (hglobal e he).1⟩
  · rcases h.bound u hu with (⟨f, rfl | hf, hf'⟩ | ⟨c, hc, hc'⟩) | ⟨b, hb, rfl⟩ | ⟨-, hlt⟩
    · exact lt_of_lt_of_le ((C.ok.formulas _ (.inl rfl)).2 u hf').1 h.le
    · cases hf
    · exact lt_of_lt_of_le ((C.ok.each c hc).2 u hc').1 h.le
    · exact lt_of_lt_of_le (C.ok.own b hb).2.1 h.le
    · exact hlt

theorem correct_of_reversible (hrev : C.Reversible Q) : C.Correct Q := by
  obtain ⟨form, next, hform, hresult⟩ := addTccConditionsStar_spec (Q := Q) C.ok
  obtain ⟨fvs, tcc, -, htcc, hclosure⟩ := universalClosure_spec (Q := Q) (closureOk hresult)
  refine ⟨form, next, fvs, tcc, hform, htcc, by rw [addTccConditions, hform]; exact htcc, ?_⟩
  refine ⟨fun M env => ?_, fun M env hwell => ?_, frees_globals hresult, hclosure⟩
  · rw [hresult.holds]
    simp only [List.not_mem_nil, false_imp_iff, implies_true, true_imp_iff]
    rfl
  · refine hresult.meaningful M env ?_ (hrev M env hwell)
    exact Interpretation.meaningfulUnder_mono (fun e he => ⟨trivial, fun _ => he⟩) env hwell

/-- Where the formula is no tautology, its antecedents are well typed only if they are so in the
order in which they stand. -/
theorem reversible_of_correct (hvalid : ¬ C.Valid Q) (hcorrect : C.Correct Q) : C.Reversible Q := by
  intro M env hwell
  obtain ⟨form, next, fvs, tcc, hform, -, -, htcc⟩ := hcorrect
  obtain ⟨form', next', hform', hresult⟩ := addTccConditionsStar_spec (Q := Q) C.ok
  rw [hform] at hform'
  cases hform'
  rw [Valid] at hvalid
  push Not at hvalid
  obtain ⟨N, e, hfails⟩ := hvalid
  rw [← htcc.holds] at hfails
  have hmeaningful := htcc.wellTyped M env hwell
  obtain ⟨inner, hinner⟩ := hresult.outer
  rw [hinner] at hfails hmeaningful
  rw [holds_tccImplication] at hfails
  push Not at hfails
  obtain ⟨hall, hnot⟩ := hfails
  rw [tccImplication] at hmeaningful
  split_ifs at hmeaningful with hempty
  · rw [List.isEmpty_iff.1 hempty]
    trivial
  · refine meaningful_of_makeConjunctionStar ⟨N, e, hall⟩ ?_
    exact meaningful_of_makeImplication ⟨N, e, holds_makeConjunctionStar.2 hall, hnot⟩ hmeaningful

end TccContext

/-- The TCC of a context is what it should be if the conditions outside of all bindings may be read
in either order, and only then unless it is valid. A binding is dropped only if it is not used and
its type is not empty. -/
theorem addTccConditions_correct (Q : Checker T) :
    (∀ C : TccContext T, (C.Reversible Q → C.Correct Q) ∧
      (¬ C.Valid Q → C.Correct Q → C.Reversible Q)) ∧
    ∀ (bindings : List (Binding T)) (body : Formula T), ∀ bd ∈ bindings,
      bd ∉ getTccClosureBindings Q bindings body →
        (∀ d ∈ body.freevars, d.uid ≠ bd.uid) ∧ (∀ b ∈ bindings, bd.uid ∉ T.tyFrees b.type) ∧
          ∀ (M : Model Q) env, (M.ty bd.type env).Nonempty := by
  refine ⟨fun C => ⟨TccContext.correct_of_reversible, TccContext.reversible_of_correct⟩, ?_⟩
  intro bindings body bd hbd hnot
  obtain ⟨hbody, htypes, hempty⟩ := dropped_of_not_mem hbd hnot
  exact ⟨hbody, htypes, fun M env => M.nonempty bd.type hempty env⟩

/-! ### Two conditions that depend on each other -/

inductive QuotientAtom
  | divisorNonzero
  | quotientPositive
  | conclusion
  deriving DecidableEq

/-- Atoms without variables. -/
def quotientTerms : Terms where
  Ty := Unit
  Atom := QuotientAtom
  equation _ := false
  tyFreevars _ := []
  atomFreevars _ := []
  tyBound _ := ∅
  atomBound _ := ∅
  tyIds _ := []
  atomNames _ := []
  atomIds _ := []
  tyFreevars_nodup _ := List.nodup_nil
  atomFreevars_nodup _ := List.nodup_nil

instance : DecidableEq quotientTerms.Atom := inferInstanceAs (DecidableEq QuotientAtom)

def sameFormula : Formula quotientTerms → Formula quotientTerms → Bool
  | .true, .true => true
  | .false, .false => true
  | .atom a, .atom b => decide (a = b)
  | .not f, .not g => sameFormula f g
  | .and f g, .and f' g' => sameFormula f f' && sameFormula g g'
  | .or f g, .or f' g' => sameFormula f f' && sameFormula g g'
  | .implies f g, .implies f' g' => sameFormula f f' && sameFormula g g'
  | _, _ => false

theorem eq_of_sameFormula {f g : Formula quotientTerms} (h : sameFormula f g = true) : f = g := by
  fun_induction sameFormula f g with
  | case1 => rfl
  | case2 => rfl
  | case3 a b => exact congrArg _ (of_decide_eq_true h)
  | case4 f g ih => rw [ih h]
  | case5 f g f' g' ihf ihg =>
    obtain ⟨hf, hg⟩ := Bool.and_eq_true_iff.1 h
    rw [ihf hf, ihg hg]
  | case6 f g f' g' ihf ihg =>
    obtain ⟨hf, hg⟩ := Bool.and_eq_true_iff.1 h
    rw [ihf hf, ihg hg]
  | case7 f g f' g' ihf ihg =>
    obtain ⟨hf, hg⟩ := Bool.and_eq_true_iff.1 h
    rw [ihf hf, ihg hg]
  | case8 => cases h

theorem known_nil {T : Terms} (globals : List (Binding T)) : Known globals [] :=
  fun _ hd => absurd hd List.not_mem_nil

def quotientChecker : Checker quotientTerms where
  tcEq := sameFormula
  substType t _ := t
  substAtom _ a _ := .atom a
  raiseActuals _ := none
  possiblyEmptyType _ := false
  newBoundvarId id _ := id
  tccsNone := false
  opToId := id
  boundVariables := []
  keepUnbound := []
  substType_frees _ _ u hu := by obtain ⟨d, hd, -⟩ := hu; cases hd
  substType_bound _ _ := subset_rfl
  substType_known _ _ _ _ h := h
  substAtom_frees _ _ _ u hu := by obtain ⟨d, hd, -⟩ := hu; cases hd
  substAtom_bound _ _ _ := subset_rfl
  substAtom_known _ _ _ _ _ h := h
  raiseActuals_frees _ _ h := by cases h
  raiseActuals_bound _ _ h := by cases h
  raiseActuals_known _ _ _ h := by cases h

/-- The divisor is zero or not; only in the second case is the quotient defined. -/
def quotientModel (nonzero : Prop) : Model quotientChecker where
  Val := Unit
  ty _ _ := Set.univ
  holds a _ := match a with
    | .divisorNonzero => nonzero
    | .quotientPositive => True
    | .conclusion => False
  meaningful a _ := match a with
    | .quotientPositive => nonzero
    | _ => True
  loc := ⟨fun _ _ _ _ => rfl, fun _ _ _ _ => Iff.rfl, fun _ _ _ _ => Iff.rfl⟩
  tcEq_holds f g h env := by rw [eq_of_sameFormula h]
  tcEq_meaningful f g h env := by rw [eq_of_sameFormula h]
  ty_subst _ _ _ _ := rfl
  holds_subst _ _ _ _ _ := Iff.rfl
  meaningful_subst _ _ _ _ _ h := h
  ty_raiseActuals _ _ h := by cases h
  nonempty _ _ _ := Set.univ_nonempty

/-- The quotient is positive, where the divisor is not zero. -/
def quotientContext : TccContext quotientTerms where
  conditions := [.formula (.atom .quotientPositive), .formula (.atom .divisorNonzero)]
  conclusion := .atom .conclusion
  globals := []
  next := 0
  ok := by
    have hfrees : ∀ a : QuotientAtom, (Formula.atom (T := quotientTerms) a).frees ⊆
        Relevant ([] : Alist quotientTerms) 0 := by
      rintro a u ⟨d, hd, -⟩
      cases hd
    refine ⟨by simp, by simp [Scoped], by simp, fun c hc => ?_, fun f hf => ?_, List.nodup_nil⟩
    · simp only [List.mem_cons, List.not_mem_nil, or_false] at hc
      rcases hc with rfl | rfl
      · exact ⟨hfrees _, fun u hu => hu.elim⟩
      · exact ⟨hfrees _, fun u hu => hu.elim⟩
    · rcases hf with rfl | hf
      · exact ⟨hfrees _, fun u hu => hu.elim⟩
      · cases hf
  known := by
    refine ⟨fun c hc => ?_, known_nil _⟩
    simp only [List.mem_cons, List.not_mem_nil, or_false] at hc
    rcases hc with rfl | rfl
    · exact known_nil _
    · exact known_nil _
  mentioned := by
    rintro u (⟨f, rfl | hf, hu⟩ | ⟨c, hc, hu⟩)
    · obtain ⟨d, hd, -⟩ := hu
      cases hd
    · cases hf
    · simp only [List.mem_cons, List.not_mem_nil, or_false] at hc
      rcases hc with rfl | rfl
      · obtain ⟨d, hd, -⟩ := hu
        cases hd
      · obtain ⟨d, hd, -⟩ := hu
        cases hd
  older := by simp
  types := by simp
  apart := by simp

/-- The condition on the divisor comes after the one on the quotient, which is well typed only if
that one holds. -/
theorem not_correct_quotient : ¬ quotientContext.Correct quotientChecker := by
  intro hcorrect
  have hvalid : ¬ quotientContext.Valid quotientChecker := fun hvalid =>
    hvalid (quotientModel True) (fun _ => ()) trivial trivial
  have hantes : outerAntes quotientContext.conditions [] =
      [.atom .divisorNonzero, .atom .quotientPositive] := by
    simp [quotientContext, outerAntes, isEquation, quotientTerms]
  have hwell : quotientContext.WellTyped (quotientModel False).toInterpretation fun _ => () :=
    ⟨trivial, fun hfalse => hfalse.elim⟩
  have hreversed := TccContext.reversible_of_correct hvalid hcorrect (quotientModel False) _ hwell
  rw [hantes] at hreversed
  exact hreversed.1

end PVS.TccGen
