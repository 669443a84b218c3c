import PVS.TccGen.Formula

/-! The functions that make formulas. -/

namespace PVS.TccGen

variable {T : Terms}

abbrev Alist (T : Terms) := List (Binding T × Binding T)

namespace Alist

def assq (u : ℕ) (alist : Alist T) : Option (Binding T) :=
  (alist.find? fun entry => entry.1.uid = u).map Prod.snd

/-- What a variable becomes. -/
def rename (alist : Alist T) (u : ℕ) : ℕ := ((alist.assq u).map Decl.uid).getD u

/-- No variable of the list is bound in something. -/
def Apart (alist : Alist T) (bound : Set ℕ) : Prop :=
  ∀ entry ∈ alist, entry.1.uid ∉ bound ∧ entry.2.uid ∉ bound

/-- The list has nothing to do with some declarations. -/
def Spares (alist : Alist T) (globals : List (Binding T)) : Prop :=
  ∀ entry ∈ alist, Known globals (T.tyFreevars entry.2.type) ∧
    ∀ g ∈ globals, entry.1.uid ≠ g.uid ∧ entry.2.uid ≠ g.uid ∧ entry.1.uid ∉ T.tyFrees g.type

end Alist

/-- Functions of the type checker that are used below. `raiseActuals` is none if it changes nothing.
`substType` and `substAtom` are `substit*` with bindings for bindings; a copy of a binding that is
made on the way has the number of the original. -/
structure Checker (T : Terms) where
  tcEq : Formula T → Formula T → Bool
  substType : T.Ty → Alist T → T.Ty
  substAtom : (dontSimplify : Bool) → T.Atom → Alist T → Formula T
  raiseActuals : T.Ty → Option T.Ty
  possiblyEmptyType : T.Ty → Bool
  newBoundvarId : String → Formula T → String
  /-- Whether `*generate-tccs*` is `none`. -/
  tccsNone : Bool
  opToId : String → String
  boundVariables : List (Binding T)
  keepUnbound : List (Binding T)
  substType_frees : ∀ t alist, ∀ u ∈ T.tyFrees (substType t alist),
    ∃ w ∈ T.tyFrees t, u = alist.rename w
  substType_bound : ∀ t alist, T.tyBound (substType t alist) ⊆ T.tyBound t
  substType_known : ∀ globals t alist, Alist.Spares alist globals →
    Known globals (T.tyFreevars t) → Known globals (T.tyFreevars (substType t alist))
  substAtom_frees : ∀ s a alist, ∀ u ∈ (substAtom s a alist).frees,
    ∃ w ∈ T.atomFrees a, u = alist.rename w
  substAtom_bound : ∀ s a alist, (substAtom s a alist).bound ⊆ T.atomBound a
  substAtom_known : ∀ globals s a alist, Alist.Spares alist globals →
    Known globals (T.atomFreevars a) → (substAtom s a alist).Known globals
  raiseActuals_frees : ∀ t t', raiseActuals t = some t' → T.tyFrees t' = T.tyFrees t
  raiseActuals_bound : ∀ t t', raiseActuals t = some t' → T.tyBound t' ⊆ T.tyBound t
  raiseActuals_known : ∀ globals t t', raiseActuals t = some t' →
    Known globals (T.tyFreevars t) → Known globals (T.tyFreevars t')

/-- The interpretations in which these functions are right. -/
structure Model {T : Terms} (Q : Checker T) extends Interpretation T where
  loc : toInterpretation.Local
  tcEq_holds : ∀ f g, Q.tcEq f g = true → ∀ env,
    (toInterpretation.Holds f env ↔ toInterpretation.Holds g env)
  tcEq_meaningful : ∀ f g, Q.tcEq f g = true → ∀ env,
    (toInterpretation.Meaningful f env ↔ toInterpretation.Meaningful g env)
  ty_subst : ∀ t alist env, Alist.Apart alist (T.tyBound t) →
    ty (Q.substType t alist) env = ty t (env ∘ alist.rename)
  holds_subst : ∀ s a alist env, Alist.Apart alist (T.atomBound a) →
    (toInterpretation.Holds (Q.substAtom s a alist) env ↔ holds a (env ∘ alist.rename))
  meaningful_subst : ∀ s a alist env, Alist.Apart alist (T.atomBound a) →
    meaningful a (env ∘ alist.rename) → toInterpretation.Meaningful (Q.substAtom s a alist) env
  ty_raiseActuals : ∀ t t', Q.raiseActuals t = some t' → ty t' = ty t
  nonempty : ∀ t, Q.possiblyEmptyType t = false → ∀ env, (ty t env).Nonempty

section Makes

variable (Q : Checker T)

def makeNegation (f : Formula T) : Formula T :=
  if Q.tcEq f .true then .false else if Q.tcEq f .false then .true else .not f

def negate : Formula T → Formula T
  | .not f => f
  | f => if Q.tccsNone then makeNegation Q f else .not f

mutual

def conjuncts : Formula T → List (Formula T)
  | .not f => (disjuncts f).map (negate Q)
  | .and f g => conjuncts f ++ conjuncts g
  | f => [f]

def disjuncts : Formula T → List (Formula T)
  | .not f => (conjuncts f).map (negate Q)
  | .or f g => disjuncts f ++ disjuncts g
  | .implies f g => (conjuncts f).map (negate Q) ++ disjuncts g
  | f => [f]

end

/-- `make!-conjunction` on formulas that are not both conjunctions. -/
def makeConjunctionFlat (f g : Formula T) : Formula T :=
  if Q.tcEq f .true then g
  else if Q.tcEq f .false then .false
  else if Q.tcEq g .true then f
  else if Q.tcEq g .false then .false
  else if Q.tcEq f g then f
  else .and f g

def isConjunction : Formula T → Bool
  | .and _ _ => true
  | _ => false

/-- `make!-conjunction*` goes on with `make!-conjunction`, but conjuncts are no conjunctions. -/
def makeConjunction (f g : Formula T) : Formula T :=
  if isConjunction f && isConjunction g && !(Q.tcEq f .true || Q.tcEq f .false || Q.tcEq g .true ||
      Q.tcEq g .false || Q.tcEq f g) then
    let conj₁ := conjuncts Q f
    let conj₂ := (conjuncts Q g).filter fun conj => !conj₁.any fun c => Q.tcEq conj c
    (conj₁ ++ conj₂).foldr (makeConjunctionFlat Q) .true
  else makeConjunctionFlat Q f g

def makeConjunctionStar (fs : List (Formula T)) : Formula T :=
  fs.foldr (makeConjunction Q) .true

def makeImplication (f g : Formula T) : Formula T :=
  if Q.tcEq f .true then g
  else if Q.tcEq f .false then .true
  else if Q.tcEq g .true then .true
  else if Q.tcEq g .false then makeNegation Q f
  else .implies f g

end Makes

/-! ### What they mean -/

namespace Interpretation

variable (M : Interpretation T)

/-- The conjuncts are well typed, where each may rely on those to its left. -/
def MeaningfulAnd : List (Formula T) → (ℕ → M.Val) → Prop
  | [], _ => True
  | f :: fs, env => M.Meaningful f env ∧ (M.Holds f env → MeaningfulAnd fs env)

def MeaningfulOr : List (Formula T) → (ℕ → M.Val) → Prop
  | [], _ => True
  | f :: fs, env => M.Meaningful f env ∧ (¬ M.Holds f env → MeaningfulOr fs env)

theorem meaningfulAnd_append {fs gs : List (Formula T)} {env : ℕ → M.Val} :
    M.MeaningfulAnd (fs ++ gs) env ↔
      M.MeaningfulAnd fs env ∧ ((∀ f ∈ fs, M.Holds f env) → M.MeaningfulAnd gs env) := by
  induction fs with
  | nil => simp [MeaningfulAnd]
  | cons f fs ih =>
    rw [List.cons_append, MeaningfulAnd, MeaningfulAnd, ih]
    simp only [List.forall_mem_cons]
    grind

theorem meaningfulOr_append {fs gs : List (Formula T)} {env : ℕ → M.Val} :
    M.MeaningfulOr (fs ++ gs) env ↔
      M.MeaningfulOr fs env ∧ ((∀ f ∈ fs, ¬ M.Holds f env) → M.MeaningfulOr gs env) := by
  induction fs with
  | nil => simp [MeaningfulOr]
  | cons f fs ih =>
    rw [List.cons_append, MeaningfulOr, MeaningfulOr, ih]
    simp only [List.forall_mem_cons]
    grind

end Interpretation

section Meaning

variable {Q : Checker T} {M : Model Q}

@[simp] theorem holds_makeNegation {f : Formula T} {env : ℕ → M.Val} :
    M.Holds (makeNegation Q f) env ↔ ¬ M.Holds f env := by
  rw [makeNegation]
  split_ifs with htrue hfalse
  · rw [M.tcEq_holds _ _ htrue]
    simp [Interpretation.Holds]
  · rw [M.tcEq_holds _ _ hfalse]
    simp [Interpretation.Holds]
  · rfl

@[simp] theorem meaningful_makeNegation {f : Formula T} {env : ℕ → M.Val} :
    M.Meaningful (makeNegation Q f) env ↔ M.Meaningful f env := by
  rw [makeNegation]
  split_ifs with htrue hfalse
  · rw [M.tcEq_meaningful _ _ htrue]
    exact Iff.rfl
  · rw [M.tcEq_meaningful _ _ hfalse]
    exact Iff.rfl
  · rfl

@[simp] theorem holds_negate {f : Formula T} {env : ℕ → M.Val} :
    M.Holds (negate Q f) env ↔ ¬ M.Holds f env := by
  cases f with
  | not f => exact not_not.symm
  | _ =>
    rw [negate]
    · split_ifs
      · exact holds_makeNegation
      · rfl
    · simp

@[simp] theorem meaningful_negate {f : Formula T} {env : ℕ → M.Val} :
    M.Meaningful (negate Q f) env ↔ M.Meaningful f env := by
  cases f with
  | not f => rfl
  | _ =>
    rw [negate]
    · split_ifs
      · exact meaningful_makeNegation
      · rfl
    · simp

theorem meaningfulOr_map_negate {fs : List (Formula T)} {env : ℕ → M.Val} :
    M.MeaningfulOr (fs.map (negate Q)) env ↔ M.MeaningfulAnd fs env := by
  induction fs with
  | nil => rfl
  | cons f fs ih =>
    rw [List.map_cons, Interpretation.MeaningfulOr, Interpretation.MeaningfulAnd, meaningful_negate,
      holds_negate, not_not, ih]

theorem meaningfulAnd_map_negate {fs : List (Formula T)} {env : ℕ → M.Val} :
    M.MeaningfulAnd (fs.map (negate Q)) env ↔ M.MeaningfulOr fs env := by
  induction fs with
  | nil => rfl
  | cons f fs ih =>
    rw [List.map_cons, Interpretation.MeaningfulOr, Interpretation.MeaningfulAnd, meaningful_negate,
      holds_negate, ih]

theorem exists_holds_map_negate {fs : List (Formula T)} {env : ℕ → M.Val} :
    (∃ d ∈ fs.map (negate Q), M.Holds d env) ↔ ¬ ∀ f ∈ fs, M.Holds f env := by
  simp

theorem forall_holds_map_negate {fs : List (Formula T)} {env : ℕ → M.Val} :
    (∀ c ∈ fs.map (negate Q), M.Holds c env) ↔ ¬ ∃ f ∈ fs, M.Holds f env := by
  simp

/-- A formula is the conjunction of its conjuncts and the disjunction of its disjuncts. -/
theorem holds_parts (f : Formula T) (env : ℕ → M.Val) :
    ((∀ c ∈ conjuncts Q f, M.Holds c env) ↔ M.Holds f env) ∧
      ((∃ d ∈ disjuncts Q f, M.Holds d env) ↔ M.Holds f env) := by
  induction f with
  | not f ih =>
    rw [conjuncts, disjuncts, forall_holds_map_negate, exists_holds_map_negate, ih.1, ih.2]
    exact ⟨Iff.rfl, Iff.rfl⟩
  | and f g ihf ihg =>
    rw [conjuncts, List.forall_mem_append, ihf.1, ihg.1]
    exact ⟨Iff.rfl, by simp [disjuncts]⟩
  | or f g ihf ihg =>
    rw [disjuncts]
    simp only [List.mem_append, or_and_right, exists_or, ihf.2, ihg.2]
    exact ⟨by simp [conjuncts], Iff.rfl⟩
  | implies f g ihf ihg =>
    rw [disjuncts]
    simp only [List.mem_append, or_and_right, exists_or, ihg.2]
    rw [exists_holds_map_negate, ihf.1, ← imp_iff_not_or]
    exact ⟨by simp [conjuncts], Iff.rfl⟩
  | _ => simp [conjuncts, disjuncts]

theorem meaningful_parts (f : Formula T) (env : ℕ → M.Val) :
    (M.MeaningfulAnd (conjuncts Q f) env ↔ M.Meaningful f env) ∧
      (M.MeaningfulOr (disjuncts Q f) env ↔ M.Meaningful f env) := by
  have hsingle : ∀ f : Formula T, (M.MeaningfulAnd [f] env ↔ M.Meaningful f env) ∧
      (M.MeaningfulOr [f] env ↔ M.Meaningful f env) :=
    fun f => ⟨and_iff_left fun _ => trivial, and_iff_left fun _ => trivial⟩
  induction f with
  | not f ih =>
    rw [conjuncts, disjuncts, meaningfulAnd_map_negate, meaningfulOr_map_negate]
    exact ih.symm
  | and f g ihf ihg =>
    refine ⟨?_, (hsingle _).2⟩
    rw [conjuncts, M.meaningfulAnd_append, (holds_parts f env).1, ihf.1, ihg.1]
    rfl
  | or f g ihf ihg =>
    have hholds := not_congr (holds_parts (Q := Q) f env).2
    push Not at hholds
    refine ⟨(hsingle _).1, ?_⟩
    rw [disjuncts, M.meaningfulOr_append, hholds, ihf.2, ihg.2]
    rfl
  | implies f g ihf ihg =>
    have hholds : (∀ d ∈ (conjuncts Q f).map (negate Q), ¬ M.Holds d env) ↔ M.Holds f env := by
      rw [← (holds_parts (Q := Q) f env).1, List.forall_mem_map]
      simp only [holds_negate, not_not]
    refine ⟨(hsingle _).1, ?_⟩
    rw [disjuncts, M.meaningfulOr_append, hholds, meaningfulOr_map_negate, ihf.1, ihg.2]
    rfl
  | true => exact hsingle _
  | false => exact hsingle _
  | atom a => exact hsingle _
  | forAll bs f => exact hsingle _

/-! ### Conjunctions and implications -/

@[simp] theorem holds_makeConjunctionFlat {f g : Formula T} {env : ℕ → M.Val} :
    M.Holds (makeConjunctionFlat Q f g) env ↔ M.Holds f env ∧ M.Holds g env := by
  rw [makeConjunctionFlat]
  split_ifs with h₁ h₂ h₃ h₄ h₅
  · simp [M.tcEq_holds _ _ h₁, Interpretation.Holds]
  · simp [M.tcEq_holds _ _ h₂, Interpretation.Holds]
  · simp [M.tcEq_holds _ _ h₃, Interpretation.Holds]
  · simp [M.tcEq_holds _ _ h₄, Interpretation.Holds]
  · simp [M.tcEq_holds _ _ h₅]
  · rfl

theorem meaningful_makeConjunctionFlat {f g : Formula T} {env : ℕ → M.Val}
    (h : M.Meaningful (.and f g) env) : M.Meaningful (makeConjunctionFlat Q f g) env := by
  rw [makeConjunctionFlat]
  split_ifs with h₁
  · exact h.2 ((M.tcEq_holds _ _ h₁ env).2 trivial)
  · trivial
  · exact h.1
  · trivial
  · exact h.1
  · exact h

theorem holds_foldr_flat {fs : List (Formula T)} {env : ℕ → M.Val} :
    M.Holds (fs.foldr (makeConjunctionFlat Q) .true) env ↔ ∀ f ∈ fs, M.Holds f env := by
  induction fs with
  | nil => simp [Interpretation.Holds]
  | cons f fs ih => rw [List.foldr_cons, holds_makeConjunctionFlat, ih, List.forall_mem_cons]

theorem meaningful_foldr_flat {fs : List (Formula T)} {env : ℕ → M.Val}
    (h : M.MeaningfulAnd fs env) :
    M.Meaningful (fs.foldr (makeConjunctionFlat Q) .true) env := by
  induction fs with
  | nil => trivial
  | cons f fs ih => exact meaningful_makeConjunctionFlat ⟨h.1, fun hf => ih (h.2 hf)⟩

/-- Conjuncts that are on the left already may be left out. -/
theorem holds_filter {fs gs : List (Formula T)} {env : ℕ → M.Val}
    (hfs : ∀ f ∈ fs, M.Holds f env) :
    (∀ g ∈ gs.filter (fun g => !fs.any fun f => Q.tcEq g f), M.Holds g env) ↔
      ∀ g ∈ gs, M.Holds g env := by
  simp only [List.mem_filter, Bool.not_eq_true', and_imp]
  refine forall₂_congr fun g _ => ⟨fun h => ?_, fun h _ => h⟩
  cases hany : fs.any fun f => Q.tcEq g f with
  | false => exact h hany
  | true =>
    obtain ⟨f, hf, heq⟩ := List.any_eq_true.1 hany
    exact (M.tcEq_holds _ _ heq env).2 (hfs f hf)

theorem meaningfulAnd_filter {gs : List (Formula T)} {env : ℕ → M.Val} (keep : Formula T → Bool)
    (hkeep : ∀ g ∈ gs, keep g = false → M.Holds g env) (h : M.MeaningfulAnd gs env) :
    M.MeaningfulAnd (gs.filter keep) env := by
  induction gs with
  | nil => trivial
  | cons g gs ih =>
    have hrest := fun hg => ih (fun g' hg' => hkeep g' (List.mem_cons_of_mem _ hg')) (h.2 hg)
    rw [List.filter_cons]
    split_ifs with hg
    · exact ⟨h.1, hrest⟩
    · exact hrest (hkeep g List.mem_cons_self (by simpa using hg))

@[simp] theorem holds_makeConjunction {f g : Formula T} {env : ℕ → M.Val} :
    M.Holds (makeConjunction Q f g) env ↔ M.Holds f env ∧ M.Holds g env := by
  rw [makeConjunction]
  split_ifs
  · dsimp only
    rw [holds_foldr_flat, List.forall_mem_append, ← (holds_parts (Q := Q) f env).1,
      ← (holds_parts (Q := Q) g env).1]
    exact and_congr_right fun hf => holds_filter hf
  · exact holds_makeConjunctionFlat

theorem meaningful_makeConjunction {f g : Formula T} {env : ℕ → M.Val}
    (h : M.Meaningful (.and f g) env) : M.Meaningful (makeConjunction Q f g) env := by
  rw [makeConjunction]
  split_ifs
  · refine meaningful_foldr_flat ?_
    rw [M.meaningfulAnd_append]
    refine ⟨(meaningful_parts f env).1.2 h.1, fun hall => ?_⟩
    refine meaningfulAnd_filter _ (fun g' _ hdrop => ?_)
      ((meaningful_parts g env).1.2 (h.2 ((holds_parts f env).1.1 hall)))
    rw [Bool.not_eq_false'] at hdrop
    obtain ⟨f', hf', heq⟩ := List.any_eq_true.1 hdrop
    exact (M.tcEq_holds _ _ heq env).2 (hall f' hf')
  · exact meaningful_makeConjunctionFlat h

@[simp] theorem holds_makeConjunctionStar {fs : List (Formula T)} {env : ℕ → M.Val} :
    M.Holds (makeConjunctionStar Q fs) env ↔ ∀ f ∈ fs, M.Holds f env := by
  rw [makeConjunctionStar]
  induction fs with
  | nil => simp [Interpretation.Holds]
  | cons f fs ih => rw [List.foldr_cons, holds_makeConjunction, ih, List.forall_mem_cons]

theorem meaningful_makeConjunctionStar {fs : List (Formula T)} {env : ℕ → M.Val}
    (h : M.MeaningfulAnd fs env) : M.Meaningful (makeConjunctionStar Q fs) env := by
  rw [makeConjunctionStar]
  induction fs with
  | nil => trivial
  | cons f fs ih =>
    refine meaningful_makeConjunction ⟨h.1, fun hf => ih (h.2 hf)⟩

@[simp] theorem holds_makeImplication {f g : Formula T} {env : ℕ → M.Val} :
    M.Holds (makeImplication Q f g) env ↔ (M.Holds f env → M.Holds g env) := by
  rw [makeImplication]
  split_ifs with h₁ h₂ h₃ h₄
  · simp [M.tcEq_holds _ _ h₁, Interpretation.Holds]
  · simp [M.tcEq_holds _ _ h₂, Interpretation.Holds]
  · simp [M.tcEq_holds _ _ h₃, Interpretation.Holds]
  · simp [M.tcEq_holds _ _ h₄, Interpretation.Holds]
  · rfl

theorem meaningful_makeImplication {f g : Formula T} {env : ℕ → M.Val}
    (h : M.Meaningful (.implies f g) env) : M.Meaningful (makeImplication Q f g) env := by
  rw [makeImplication]
  split_ifs with h₁
  · exact h.2 ((M.tcEq_holds _ _ h₁ env).2 trivial)
  · trivial
  · trivial
  · exact meaningful_makeNegation.2 h.1
  · exact h

/-! ### What is well typed where nothing is false -/

/-- A formula that holds somewhere is not replaced by one that does not. -/
theorem not_tcEq_false {f : Formula T} (h : ∃ (M : Model Q) (env : ℕ → M.Val), M.Holds f env) :
    Q.tcEq f .false ≠ true := by
  intro heq
  obtain ⟨M, env, hf⟩ := h
  exact (M.tcEq_holds _ _ heq env).1 hf

/-- Some formulas hold together somewhere. -/
def Satisfiable (Q : Checker T) (fs : List (Formula T)) : Prop :=
  ∃ (M : Model Q) (env : ℕ → M.Val), ∀ f ∈ fs, M.Holds f env

theorem meaningful_of_makeConjunctionFlat {f g : Formula T} {env : ℕ → M.Val}
    (hsat : Satisfiable Q [f, g]) (h : M.Meaningful (makeConjunctionFlat Q f g) env) :
    M.Meaningful (.and f g) env := by
  obtain ⟨N, e, hall⟩ := hsat
  have hf := not_tcEq_false ⟨N, e, hall f (by simp)⟩
  have hg := not_tcEq_false ⟨N, e, hall g (by simp)⟩
  rw [makeConjunctionFlat] at h
  split_ifs at h with h₁ h₂ h₃
  · exact ⟨(M.tcEq_meaningful _ _ h₁ env).2 trivial, fun _ => h⟩
  · exact ⟨h, fun _ => (M.tcEq_meaningful _ _ h₂ env).2 trivial⟩
  · exact ⟨h, fun _ => (M.tcEq_meaningful _ _ h₃ env).1 h⟩
  · exact h

theorem meaningful_of_foldr_flat {fs : List (Formula T)} {env : ℕ → M.Val}
    (hsat : Satisfiable Q fs)
    (h : M.Meaningful (fs.foldr (makeConjunctionFlat Q) .true) env) : M.MeaningfulAnd fs env := by
  obtain ⟨N, e, hall⟩ := hsat
  induction fs with
  | nil => trivial
  | cons f fs ih =>
    rw [List.forall_mem_cons] at hall
    have hand := meaningful_of_makeConjunctionFlat ⟨N, e, by
      simpa using ⟨hall.1, holds_foldr_flat.2 hall.2⟩⟩ h
    exact ⟨hand.1, fun hf => ih (hand.2 hf) hall.2⟩

/-- Conjuncts that were left out are well typed, as they are on the left already. -/
theorem meaningfulAnd_of_filter {fs gs : List (Formula T)} {env : ℕ → M.Val}
    (hfs : M.MeaningfulAnd fs env) (hall : ∀ f ∈ fs, M.Holds f env)
    (h : M.MeaningfulAnd (gs.filter fun g => !fs.any fun f => Q.tcEq g f) env) :
    M.MeaningfulAnd gs env := by
  have hmeaningful : ∀ f ∈ fs, M.Meaningful f env := by
    clear h
    induction fs with
    | nil => simp
    | cons f fs ih =>
      rw [List.forall_mem_cons] at hall ⊢
      exact ⟨hfs.1, ih (hfs.2 hall.1) hall.2⟩
  induction gs with
  | nil => trivial
  | cons g gs ih =>
    rw [List.filter_cons] at h
    split_ifs at h with hkeep
    · exact ⟨h.1, fun hg => ih (h.2 hg)⟩
    · rw [Bool.not_eq_true', Bool.not_eq_false] at hkeep
      obtain ⟨f, hf, heq⟩ := List.any_eq_true.1 hkeep
      exact ⟨(M.tcEq_meaningful _ _ heq env).2 (hmeaningful f hf), fun _ => ih h⟩

theorem meaningful_of_makeConjunction {f g : Formula T} {env : ℕ → M.Val}
    (hsat : Satisfiable Q [f, g]) (h : M.Meaningful (makeConjunction Q f g) env) :
    M.Meaningful (.and f g) env := by
  rw [makeConjunction] at h
  split_ifs at h
  · obtain ⟨N, e, hall⟩ := hsat
    have hparts : Satisfiable Q (conjuncts Q f ++
        (conjuncts Q g).filter fun conj => !(conjuncts Q f).any fun c => Q.tcEq conj c) := by
      refine ⟨N, e, List.forall_mem_append.2 ⟨(holds_parts f e).1.2 (hall f (by simp)), fun c hc => ?_⟩⟩
      exact (holds_parts g e).1.2 (hall g (by simp)) c (List.mem_filter.1 hc).1
    have hand := meaningful_of_foldr_flat hparts h
    rw [M.meaningfulAnd_append] at hand
    refine ⟨(meaningful_parts f env).1.1 hand.1, fun hf => (meaningful_parts (Q := Q) g env).1.1 ?_⟩
    have hf' := (holds_parts f env).1.2 hf
    exact meaningfulAnd_of_filter hand.1 hf' (hand.2 hf')
  · exact meaningful_of_makeConjunctionFlat hsat h

theorem meaningful_of_makeConjunctionStar {fs : List (Formula T)} {env : ℕ → M.Val}
    (hsat : Satisfiable Q fs) (h : M.Meaningful (makeConjunctionStar Q fs) env) :
    M.MeaningfulAnd fs env := by
  obtain ⟨N, e, hall⟩ := hsat
  induction fs with
  | nil => trivial
  | cons f fs ih =>
    rw [List.forall_mem_cons] at hall
    have hand := meaningful_of_makeConjunction ⟨N, e, by
      simpa using ⟨hall.1, holds_makeConjunctionStar.2 hall.2⟩⟩ h
    exact ⟨hand.1, fun hf => ih (hand.2 hf) hall.2⟩

/-- Where the implication fails somewhere, what is on its left is not simplified away. -/
theorem meaningful_of_makeImplication {f g : Formula T} {env : ℕ → M.Val}
    (hsat : ∃ (N : Model Q) (e : ℕ → N.Val), N.Holds f e ∧ ¬ N.Holds g e)
    (h : M.Meaningful (makeImplication Q f g) env) : M.Meaningful f env := by
  obtain ⟨N, e, hf, hg⟩ := hsat
  rw [makeImplication] at h
  split_ifs at h with h₁ h₂ h₃ h₄
  · exact (M.tcEq_meaningful _ _ h₁ env).2 trivial
  · exact absurd h₂ (not_tcEq_false ⟨N, e, hf⟩)
  · exact absurd ((N.tcEq_holds _ _ h₃ e).2 trivial) hg
  · exact meaningful_makeNegation.1 h
  · exact h.1

end Meaning

/-! ### What they contain -/

/-- A property of formulas that is one of their parts below the propositional connectives. -/
structure PartWise (P : Formula T → Prop) : Prop where
  true : P .true
  false : P .false
  not : ∀ f, P (.not f) ↔ P f
  and : ∀ f g, P (.and f g) ↔ P f ∧ P g
  or : ∀ f g, P (.or f g) ↔ P f ∧ P g
  implies : ∀ f g, P (.implies f g) ↔ P f ∧ P g

theorem partWise_frees (S : Set ℕ) : PartWise fun f : Formula T => f.frees ⊆ S where
  true := Set.empty_subset S
  false := Set.empty_subset S
  not _ := Iff.rfl
  and _ _ := Set.union_subset_iff
  or _ _ := Set.union_subset_iff
  implies _ _ := Set.union_subset_iff

theorem partWise_bound (S : Set ℕ) : PartWise fun f : Formula T => f.bound ⊆ S where
  true := Set.empty_subset S
  false := Set.empty_subset S
  not _ := Iff.rfl
  and _ _ := Set.union_subset_iff
  or _ _ := Set.union_subset_iff
  implies _ _ := Set.union_subset_iff

theorem partWise_known (globals : List (Binding T)) : PartWise (Formula.Known globals) where
  true := trivial
  false := trivial
  not _ := Iff.rfl
  and _ _ := Iff.rfl
  or _ _ := Iff.rfl
  implies _ _ := Iff.rfl

namespace PartWise

variable {Q : Checker T} {P : Formula T → Prop}

theorem makeNegation (hP : PartWise P) {f : Formula T} (hf : P f) : P (makeNegation Q f) := by
  rw [TccGen.makeNegation]
  split_ifs
  · exact hP.false
  · exact hP.true
  · exact (hP.not f).2 hf

theorem negate (hP : PartWise P) {f : Formula T} (hf : P f) : P (negate Q f) := by
  cases f with
  | not f => exact (hP.not f).1 hf
  | _ =>
    rw [TccGen.negate]
    · split_ifs
      · exact hP.makeNegation hf
      · exact (hP.not _).2 hf
    · simp

theorem map_negate (hP : PartWise P) {fs : List (Formula T)} (hfs : ∀ f ∈ fs, P f) :
    ∀ f ∈ fs.map (TccGen.negate Q), P f := by
  rw [List.forall_mem_map]
  exact fun f hf => hP.negate (hfs f hf)

theorem parts (hP : PartWise P) (f : Formula T) (hf : P f) :
    (∀ c ∈ conjuncts Q f, P c) ∧ ∀ d ∈ disjuncts Q f, P d := by
  have hsingle : ∀ f : Formula T, P f → ∀ c ∈ [f], P c := by simp
  induction f with
  | not f ih =>
    have hparts := ih ((hP.not f).1 hf)
    exact ⟨hP.map_negate hparts.2, hP.map_negate hparts.1⟩
  | and f g ihf ihg =>
    obtain ⟨h₁, h₂⟩ := (hP.and f g).1 hf
    exact ⟨List.forall_mem_append.2 ⟨(ihf h₁).1, (ihg h₂).1⟩, hsingle _ hf⟩
  | or f g ihf ihg =>
    obtain ⟨h₁, h₂⟩ := (hP.or f g).1 hf
    exact ⟨hsingle _ hf, List.forall_mem_append.2 ⟨(ihf h₁).2, (ihg h₂).2⟩⟩
  | implies f g ihf ihg =>
    obtain ⟨h₁, h₂⟩ := (hP.implies f g).1 hf
    exact ⟨hsingle _ hf, List.forall_mem_append.2 ⟨hP.map_negate (ihf h₁).1, (ihg h₂).2⟩⟩
  | _ => exact ⟨hsingle _ hf, hsingle _ hf⟩

theorem makeConjunctionFlat (hP : PartWise P) {f g : Formula T} (hf : P f) (hg : P g) :
    P (makeConjunctionFlat Q f g) := by
  rw [TccGen.makeConjunctionFlat]
  split_ifs
  · exact hg
  · exact hP.false
  · exact hf
  · exact hP.false
  · exact hf
  · exact (hP.and f g).2 ⟨hf, hg⟩

theorem foldr_flat (hP : PartWise P) {fs : List (Formula T)} (hfs : ∀ f ∈ fs, P f) :
    P (fs.foldr (TccGen.makeConjunctionFlat Q) .true) := by
  induction fs with
  | nil => exact hP.true
  | cons f fs ih =>
    rw [List.forall_mem_cons] at hfs
    exact hP.makeConjunctionFlat hfs.1 (ih hfs.2)

theorem makeConjunction (hP : PartWise P) {f g : Formula T} (hf : P f) (hg : P g) :
    P (makeConjunction Q f g) := by
  rw [TccGen.makeConjunction]
  split_ifs
  · refine hP.foldr_flat (List.forall_mem_append.2 ⟨(hP.parts f hf).1, fun c hc => ?_⟩)
    exact (hP.parts g hg).1 c (List.mem_filter.1 hc).1
  · exact hP.makeConjunctionFlat hf hg

theorem makeConjunctionStar (hP : PartWise P) {fs : List (Formula T)} (hfs : ∀ f ∈ fs, P f) :
    P (makeConjunctionStar Q fs) := by
  rw [TccGen.makeConjunctionStar]
  induction fs with
  | nil => exact hP.true
  | cons f fs ih =>
    rw [List.forall_mem_cons] at hfs
    exact hP.makeConjunction hfs.1 (ih hfs.2)

theorem makeImplication (hP : PartWise P) {f g : Formula T} (hf : P f) (hg : P g) :
    P (makeImplication Q f g) := by
  rw [TccGen.makeImplication]
  split_ifs
  · exact hg
  · exact hP.true
  · exact hP.true
  · exact hP.makeNegation hf
  · exact (hP.implies f g).2 ⟨hf, hg⟩

end PartWise

end PVS.TccGen
