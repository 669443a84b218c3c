import PVS.BddSimp.Subgoals

/-! Two variables for one recognizer. -/

namespace PVS.BddSimp

open PVS.Library

section Twins

variable {T : Terms} {Q : TcEq T} {P : BddPackage}

/-- Recognizer applications of one constructor to one argument, with different keys. -/
structure Twins (Q : TcEq T) (e₁ e₂ : Expr T) (a₁ a₂ : T.Arg) (c : ℕ) : Prop where
  recognized₁ : e₁.recognized = some (a₁, c)
  recognized₂ : e₂.recognized = some (a₂, c)
  arg : Q.arg a₁ a₂ = true
  key : sameKey Q e₁.normalized e₂.normalized = false

/-- Where two diagrams are never true together, the constrained one is never true. -/
def BddConstrains (P : BddPackage) : Prop :=
  ∀ f c, (∀ ρ, (f.eval ρ && c.eval ρ) = false) → ∀ ρ, (P.constrain f c).eval ρ = false

theorem translateToBdd_recognized {e : Expr T} {a : T.Arg} {c : ℕ}
    (hrec : e.recognized = some (a, c)) (htrue : Q.expr e .true = false)
    (hfalse : Q.expr e .false = false) (s : BddState T) :
    translateToBdd Q P e s = makeBddVar Q P e s := by
  cases e with
  | recognizer op arg con => rfl
  | equation unit left arg con => rfl
  | injection arg index =>
    rw [translateToBdd, translateExpr, htrue, hfalse]
    rfl
    all_goals simp
  | _ => cases hrec

/-- The form of the twins has a variable for each. -/
theorem makeBddVar_twins {e₁ e₂ : Expr T} {a₁ a₂ : T.Arg} {c : ℕ} (h : Twins Q e₁ e₂ a₁ a₂ c) :
    (makeBddVar Q P e₁ ⟨[], [], 0, []⟩).1 = P.var 1 ∧
      (makeBddVar Q P e₂ (makeBddVar Q P e₁ ⟨[], [], 0, []⟩).2).1 = P.var 2 ∧
      (makeBddVar Q P e₂ (makeBddVar Q P e₁ ⟨[], [], 0, []⟩).2).2.recognizerForms =
        [(a₁, [2, 1])] := by
  have harg₁ : recognizerArg e₁.normalized = some a₁ := by
    rw [Expr.recognizerArg_eq, Expr.recognized_normalized, h.recognized₁]
    rfl
  have harg₂ : recognizerArg e₂.normalized = some a₂ := by
    rw [Expr.recognizerArg_eq, Expr.recognized_normalized, h.recognized₂]
    rfl
  have hfirst : makeBddVar Q P e₁ ⟨[], [], 0, []⟩ =
      (P.var 1, ⟨[(e₁.normalized, 1)], [(1, e₁.normalized)], 1, [(a₁, [1])]⟩) := by
    rw [makeBddVar]
    simp only [List.find?_nil]
    rw [show (recognizerApplication? e₁).getD e₁ = e₁.normalized from rfl,
      enterIntoRecognizerFormAlist, harg₁]
    rfl
  rw [hfirst, makeBddVar]
  simp only [show (recognizerApplication? e₂).getD e₂ = e₂.normalized from rfl, List.find?_cons,
    h.key, List.find?_nil]
  rw [enterIntoRecognizerFormAlist, harg₂]
  have hsymm : Q.arg a₂ a₁ = true := Q.arg_symm _ _ h.arg
  simp [enterForm, hsymm]

/-- The sequent that says that the two are not true together is proved. -/
theorem runBddsimp_twins {e₁ e₂ : Expr T} {a₁ a₂ : T.Arg} {c : ℕ} (h : Twins Q e₁ e₂ a₁ a₂ c)
    (htrue : ∀ e ∈ [e₁, e₂], Q.expr e .true = false) (hfalse : ∀ e ∈ [e₁, e₂], Q.expr e .false = false)
    (hP : BddConstrains P) (tccsNone irredundant : Bool) :
    runBddsimp Q P tccsNone irredundant [⟨some 0, .not e₁⟩, ⟨some 1, .not e₂⟩] (fun _ => true) =
      some (.subgoals []) := by
  obtain ⟨hvar₁, hvar₂, hforms⟩ := makeBddVar_twins (P := P) h
  have htrans₁ := translateToBdd_recognized (P := P) h.recognized₁ (htrue e₁ (by simp))
    (hfalse e₁ (by simp)) ⟨[], [], 0, []⟩
  have htrans₂ := translateToBdd_recognized (P := P) h.recognized₂ (htrue e₂ (by simp))
    (hfalse e₂ (by simp)) (makeBddVar Q P e₁ ⟨[], [], 0, []⟩).2
  obtain ⟨bdd, s, hmake, hnever⟩ : ∃ bdd s, makeSformsBdd Q P
      [⟨some 0, .not e₁⟩, ⟨some 1, .not e₂⟩] none ⟨[], [], 0, []⟩ = some (bdd, s) ∧
        ∀ ρ, bdd.eval ρ = false := by
    simp only [makeSformsBdd, translateToBdd, htrans₁, htrans₂, hvar₁, hvar₂, hforms, andMaybe]
    refine ⟨_, _, rfl, ?_⟩
    -- the axiom says that the two are not true together
    have hexclusive : makeEnumExclusiveBdd P ([2, 1].map P.var) none =
        some (P.or (P.not (P.var 2)) (P.not (P.var 1))) := rfl
    simp only [addEnumBdds, hexclusive]
    cases makeEnumInclusiveBdd P (a₁, [2, 1]) with
    | none =>
      refine hP _ _ fun ρ => ?_
      cases h₁ : ρ 1 <;> cases h₂ : ρ 2 <;> simp [h₁, h₂]
    | some incl =>
      refine hP _ _ fun ρ => ?_
      cases h₁ : ρ 1 <;> cases h₂ : ρ 2 <;> simp [h₁, h₂]
  have hselected : ([⟨some 0, .not e₁⟩, ⟨some 1, .not e₂⟩] : List (SForm T)).filter (fun _ => true) =
      [⟨some 0, .not e₁⟩, ⟨some 1, .not e₂⟩] := rfl
  rw [runBddsimp, hselected]
  simp only [List.isEmpty_cons, bddsimpConjuncts, hmake, Option.bind_eq_bind, Option.bind_some,
    P.sumOfCubes_eq_nil irredundant hnever]
  rfl

/-- Twins that are true in some model make the rule unsound. -/
theorem not_simplifies_twins {e₁ e₂ : Expr T} {a₁ a₂ : T.Arg} {c : ℕ} (h : Twins Q e₁ e₂ a₁ a₂ c)
    (htrue : ∀ e ∈ [e₁, e₂], Q.expr e .true = false) (M : Model Q) (hM : M.eval e₁ = true)
    (hP : BddConstrains P) (tccsNone irredundant : Bool) :
    ¬ Simplifies Q [⟨some 0, .not e₁⟩, ⟨some 1, .not e₂⟩] (fun _ => true)
      (runBddsimp Q P tccsNone irredundant [⟨some 0, .not e₁⟩, ⟨some 1, .not e₂⟩] fun _ => true) := by
  have hM₂ : M.eval e₂ = true := by
    rw [M.eval_recognized h.recognized₁, decide_eq_true_eq] at hM
    rw [M.eval_recognized h.recognized₂, ← M.arg_eq _ _ h.arg, decide_eq_true hM]
  have hfalse : ∀ e ∈ [e₁, e₂], Q.expr e .false = false := by
    intro e he
    by_contra hne
    have heval := M.expr_eq _ _ (Bool.not_eq_false _ ▸ hne)
    simp only [List.mem_cons, List.not_mem_nil, or_false] at he
    rcases he with rfl | rfl
    · rw [hM] at heval
      cases heval
    · rw [hM₂] at heval
      cases heval
  rw [runBddsimp_twins h htrue hfalse hP]
  intro hsimplifies
  obtain ⟨sform, hsform, heval⟩ := (hsimplifies.1 M).1 (by rintro goal ⟨⟩)
  simp only [List.mem_cons, List.not_mem_nil, or_false] at hsform
  rcases hsform with rfl | rfl
  · simp [Interpretation.eval, hM] at heval
  · simp [Interpretation.eval, hM₂] at heval

end Twins

/-! ### Correctness -/

/-- The atoms of the selected formulas. -/
def selectedAtoms {T : Terms} (sforms : List (SForm T)) (select : SForm T → Bool) : Set (Expr T) :=
  { e | ∃ sform ∈ sforms.filter select, e ∈ sform.formula.atoms }

/-- The rule is right where no recognizer has two variables for one argument, and wrong about every
pair of variables that a recognizer has. -/
theorem runBddsimp_correct {T : Terms} (Q : TcEq T) :
    (∀ (P : BddPackage) (tccsNone irredundant : Bool) (sforms : List (SForm T))
      (select : SForm T → Bool), NoTwins Q (selectedAtoms sforms select) →
        Simplifies Q sforms select (runBddsimp Q P tccsNone irredundant sforms select)) ∧
    ∀ (P : BddPackage) (tccsNone irredundant : Bool) (e₁ e₂ : Expr T) (a₁ a₂ : T.Arg) (c : ℕ),
      BddConstrains P → Twins Q e₁ e₂ a₁ a₂ c → (∀ e ∈ [e₁, e₂], Q.expr e .true = false) →
        (∃ M : Model Q, M.eval e₁ = true) →
          ¬ Simplifies Q [⟨some 0, .not e₁⟩, ⟨some 1, .not e₂⟩] (fun _ => true)
            (runBddsimp Q P tccsNone irredundant [⟨some 0, .not e₁⟩, ⟨some 1, .not e₂⟩]
              fun _ => true) := by
  constructor
  · intro P tccsNone irredundant sforms select hA
    exact runBddsimp_simplifies hA P tccsNone irredundant sforms select fun sform hsform e he =>
      ⟨sform, hsform, he⟩
  · rintro P tccsNone irredundant e₁ e₂ a₁ a₂ c hP h htrue ⟨M, hM⟩
    exact not_simplifies_twins h htrue M hM hP tccsNone irredundant

/-! ### A list and a coercion of it -/

/-- The arguments are names and coercions, all of them lists. -/
inductive ListTerm
  | name (id : ℕ)
  | coercion (e : ListTerm)
  deriving DecidableEq

namespace ListTerm

/-- What `tc-eq` compares. -/
def strip : ListTerm → ℕ
  | name id => id
  | coercion e => strip e

/-- What `pvs-sxhash` counts here. -/
def coercions : ListTerm → ℕ
  | name _ => 0
  | coercion e => coercions e + 1

end ListTerm

def listTerms : Terms where
  Arg := ListTerm
  Name := Unit
  Atom := Empty
  size _ := 2
  recognizer _ := ()
  application _ := true

inductive Skeleton
  | leaf (label id : ℕ)
  | node (label : ℕ) (e₁ e₂ e₃ : Skeleton)
  deriving DecidableEq

namespace Skeleton

def ofExpr : Expr listTerms → Skeleton
  | .true => leaf 0 0
  | .false => leaf 1 0
  | .not e => node 0 (ofExpr e) (leaf 0 0) (leaf 0 0)
  | .and e₁ e₂ => node 1 (ofExpr e₁) (ofExpr e₂) (leaf 0 0)
  | .or e₁ e₂ => node 2 (ofExpr e₁) (ofExpr e₂) (leaf 0 0)
  | .implies e₁ e₂ => node 3 (ofExpr e₁) (ofExpr e₂) (leaf 0 0)
  | .iff e₁ e₂ => node 4 (ofExpr e₁) (ofExpr e₂) (leaf 0 0)
  | .disequation e₁ e₂ => node 5 (ofExpr e₁) (ofExpr e₂) (leaf 0 0)
  | .branch e₁ e₂ e₃ => node 6 (ofExpr e₁) (ofExpr e₂) (ofExpr e₃)
  | .recognizer _ arg con => leaf (2 + con.val) (ListTerm.strip arg)
  | .equation _ _ arg con => leaf (4 + con.val) (ListTerm.strip arg)
  | .injection arg index => leaf (6 + index.val) (ListTerm.strip arg)

/-- The truth of what is read, where every list is a `cons`. -/
def value : Skeleton → Bool
  | leaf label _ => label ∈ [0, 3, 5, 7]
  | node 0 e _ _ => !value e
  | node 1 e₁ e₂ _ => value e₁ && value e₂
  | node 2 e₁ e₂ _ => value e₁ || value e₂
  | node 3 e₁ e₂ _ => !value e₁ || value e₂
  | node 4 e₁ e₂ _ => value e₁ == value e₂
  | node 5 e₁ e₂ _ => !(value e₁ == value e₂)
  | node _ e₁ e₂ e₃ => if value e₁ then value e₂ else value e₃

end Skeleton

/-- `tc-eq` does not look at coercions, and `pvs-sxhash` does. -/
def listTcEq : TcEq listTerms where
  expr e₁ e₂ := Skeleton.ofExpr e₁ = Skeleton.ofExpr e₂
  arg a₁ a₂ := ListTerm.strip a₁ = ListTerm.strip a₂
  sxhash
    | .recognizer _ arg _ => ListTerm.coercions arg
    | _ => 0
  expr_refl _ := decide_eq_true rfl
  expr_symm _ _ h := decide_eq_true (of_decide_eq_true h).symm
  expr_trans _ _ _ h h' := decide_eq_true ((of_decide_eq_true h).trans (of_decide_eq_true h'))
  arg_refl _ := decide_eq_true rfl
  arg_symm _ _ h := decide_eq_true (of_decide_eq_true h).symm
  arg_trans _ _ _ h h' := decide_eq_true ((of_decide_eq_true h).trans (of_decide_eq_true h'))
  size_eq _ _ _ := rfl

def consLists : Interpretation listTerms where
  con _ := (1 : Fin 2)
  holds := Empty.elim

theorem consLists_eval (e : Expr listTerms) : consLists.eval e = (Skeleton.ofExpr e).value := by
  have hcon : ∀ label ∈ [2, 4, 6], ∀ con : Fin 2,
      decide ((1 : Fin 2) = con) = decide (label + con.val ∈ [0, 3, 5, 7]) := by decide
  induction e with
  | true => rfl
  | false => rfl
  | not e ih => rw [Interpretation.eval, ih, Skeleton.ofExpr, Skeleton.value]
  | and e₁ e₂ ih₁ ih₂ => rw [Interpretation.eval, ih₁, ih₂, Skeleton.ofExpr, Skeleton.value]
  | or e₁ e₂ ih₁ ih₂ => rw [Interpretation.eval, ih₁, ih₂, Skeleton.ofExpr, Skeleton.value]
  | implies e₁ e₂ ih₁ ih₂ => rw [Interpretation.eval, ih₁, ih₂, Skeleton.ofExpr, Skeleton.value]
  | iff e₁ e₂ ih₁ ih₂ => rw [Interpretation.eval, ih₁, ih₂, Skeleton.ofExpr, Skeleton.value]
  | disequation e₁ e₂ ih₁ ih₂ =>
    rw [Interpretation.eval, ih₁, ih₂, Skeleton.ofExpr, Skeleton.value]
  | branch e₁ e₂ e₃ ih₁ ih₂ ih₃ =>
    rw [Interpretation.eval, ih₁, ih₂, ih₃, Skeleton.ofExpr, Skeleton.value]
    all_goals simp
  | recognizer op arg con => exact hcon 2 (by decide) con
  | equation _ left arg con => exact hcon 4 (by decide) con
  | injection arg index => exact hcon 6 (by decide) index
  | atom a => exact a.elim

/-- The model in which every list is a `cons`. -/
def consModel : Model listTcEq where
  toInterpretation := consLists
  arg_eq _ _ _ := rfl
  expr_eq e₁ e₂ h := by
    rw [consLists_eval, consLists_eval, of_decide_eq_true (p := Skeleton.ofExpr e₁ = _) h]

theorem treePackage_constrains : BddConstrains treePackage := by
  intro f c hnever ρ
  have := hnever ρ
  change (f.ite c .zero).eval ρ = false
  rw [Bdd.eval_ite]
  cases hf : f.eval ρ with
  | true => simpa [hf] using this
  | false => rfl

/-- `cons?(x)` -/
def consName : Expr listTerms := .recognizer () (.name 0) (1 : Fin 2)

/-- `cons?(x :: list[int])` -/
def consCoercion : Expr listTerms := .recognizer () (.coercion (.name 0)) (1 : Fin 2)

/-- `cons?(x), cons?(x :: list[int]) |-` is proved. -/
theorem not_simplifies_coercion :
    ¬ Simplifies listTcEq [⟨some 0, .not consName⟩, ⟨some 1, .not consCoercion⟩] (fun _ => true)
      (runBddsimp listTcEq treePackage true true
        [⟨some 0, .not consName⟩, ⟨some 1, .not consCoercion⟩] fun _ => true) := by
  have htwins : Twins listTcEq consName consCoercion (.name 0) (.coercion (.name 0)) 1 :=
    ⟨rfl, rfl, by decide, by decide⟩
  exact not_simplifies_twins htwins (by decide) consModel rfl treePackage_constrains true true

end PVS.BddSimp
