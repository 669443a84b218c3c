import PVS.Assert.QuantElimScope

/-! Quantifiers over natural numbers below a term. -/

namespace PVS.Assert.Arith

open Library.Telescope

inductive Term where
  | var (x : ℕ)
  | num (n : ℕ)
  deriving DecidableEq

inductive Ty where
  | nat
  | below (t : Term)
  deriving DecidableEq

inductive Form where
  | tt
  | ff
  | eq (a b : Term)
  | lt (a b : Term)
  | conj (φ ψ : Form)
  | disj (φ ψ : Form)
  | neg (φ : Form)
  deriving DecidableEq

namespace Term

def freevars : Term → List ℕ
  | var x => [x]
  | num _ => []

def eval : Term → (ℕ → ℕ) → ℕ
  | var x, ρ => ρ x
  | num n, _ => n

def substit : Term → List (ℕ × Term) → Term
  | var x, s => (s.lookup x).getD (var x)
  | num n, _ => num n

def variableOf : Term → Option ℕ
  | var x => some x
  | num _ => none

theorem eval_congr {t : Term} {ρ ρ' : ℕ → ℕ} (h : ∀ x ∈ t.freevars, ρ x = ρ' x) :
    t.eval ρ = t.eval ρ' := by
  cases t with
  | var x => exact h x (List.mem_singleton_self x)
  | num n => rfl

theorem eval_substit (t : Term) (s : List (ℕ × Term)) (ρ : ℕ → ℕ) :
    (t.substit s).eval ρ = t.eval (substEnv eval s ρ) := by
  cases t with
  | var x =>
    simp only [substit, eval, substEnv]
    cases s.lookup x <;> rfl
  | num n => rfl

theorem freevars_substit {t : Term} {s : List (ℕ × Term)} {x : ℕ}
    (h : x ∈ (t.substit s).freevars) :
    (x ∈ t.freevars ∧ s.lookup x = none) ∨ ∃ p ∈ s, x ∈ p.2.freevars := by
  cases t with
  | var y =>
    rw [substit] at h
    cases hy : s.lookup y with
    | none =>
      rw [hy] at h
      obtain rfl := List.mem_singleton.1 h
      exact Or.inl ⟨h, hy⟩
    | some u =>
      rw [hy] at h
      obtain ⟨l₁, l₂, rfl, -⟩ := List.lookup_eq_some_iff.1 hy
      exact Or.inr ⟨(y, u), by simp, h⟩
  | num n => cases h

end Term

namespace Ty

def freevars : Ty → List ℕ
  | nat => []
  | below t => t.freevars

def mem : Ty → (ℕ → ℕ) → ℕ → Prop
  | nat, _, _ => True
  | below t, ρ, v => v < t.eval ρ

def substit : Ty → List (ℕ × Term) → Ty
  | nat, _ => nat
  | below t, s => below (t.substit s)

def tccs (t : Term) : Ty → List Form
  | nat => []
  | below u => [.lt t u]

end Ty

namespace Form

def freevars : Form → List ℕ
  | tt | ff => []
  | eq a b | lt a b => a.freevars ++ b.freevars
  | conj φ ψ | disj φ ψ => φ.freevars ++ ψ.freevars
  | neg φ => φ.freevars

def holds : Form → (ℕ → ℕ) → Prop
  | tt, _ => True
  | ff, _ => False
  | eq a b, ρ => a.eval ρ = b.eval ρ
  | lt a b, ρ => a.eval ρ < b.eval ρ
  | conj φ ψ, ρ => φ.holds ρ ∧ ψ.holds ρ
  | disj φ ψ, ρ => φ.holds ρ ∨ ψ.holds ρ
  | neg φ, ρ => ¬ φ.holds ρ

def substit : Form → List (ℕ × Term) → Form
  | tt, _ => tt
  | ff, _ => ff
  | eq a b, s => eq (a.substit s) (b.substit s)
  | lt a b, s => lt (a.substit s) (b.substit s)
  | conj φ ψ, s => conj (φ.substit s) (ψ.substit s)
  | disj φ ψ, s => disj (φ.substit s) (ψ.substit s)
  | neg φ, s => neg (φ.substit s)

def conjuncts : Form → List Form
  | conj φ ψ => φ.conjuncts ++ ψ.conjuncts
  | φ => [φ]

def disjuncts : Form → List Form
  | disj φ ψ => φ.disjuncts ++ ψ.disjuncts
  | φ => [φ]

def negation : Form → Option Form
  | neg φ => some φ
  | _ => none

def equality : Form → Option (Term × Term)
  | eq a b => some (a, b)
  | _ => none

def makeConjunction (l : List Form) (φ : Form) : Form := l.foldr conj φ

def makeImplication (l : List Form) (φ : Form) : Form := l.foldr (fun ψ => disj (neg ψ)) φ

theorem holds_congr {φ : Form} {ρ ρ' : ℕ → ℕ} (h : ∀ x ∈ φ.freevars, ρ x = ρ' x) :
    φ.holds ρ ↔ φ.holds ρ' := by
  induction φ with
  | tt | ff => rfl
  | eq a b | lt a b =>
    obtain ⟨ha, hb⟩ := List.forall_mem_append.1 h
    rw [holds, holds, Term.eval_congr ha, Term.eval_congr hb]
  | conj φ ψ ihφ ihψ =>
    obtain ⟨hφ, hψ⟩ := List.forall_mem_append.1 h
    exact and_congr (ihφ hφ) (ihψ hψ)
  | disj φ ψ ihφ ihψ =>
    obtain ⟨hφ, hψ⟩ := List.forall_mem_append.1 h
    exact or_congr (ihφ hφ) (ihψ hψ)
  | neg φ ih => exact not_congr (ih h)

theorem holds_substit (φ : Form) (s : List (ℕ × Term)) (ρ : ℕ → ℕ) :
    (φ.substit s).holds ρ ↔ φ.holds (substEnv Term.eval s ρ) := by
  induction φ with
  | tt | ff => rfl
  | eq a b | lt a b => simp only [substit, holds, Term.eval_substit]
  | conj φ ψ ihφ ihψ => exact and_congr ihφ ihψ
  | disj φ ψ ihφ ihψ => exact or_congr ihφ ihψ
  | neg φ ih => exact not_congr ih

theorem freevars_substit {φ : Form} {s : List (ℕ × Term)} {x : ℕ}
    (h : x ∈ (φ.substit s).freevars) :
    (x ∈ φ.freevars ∧ s.lookup x = none) ∨ ∃ p ∈ s, x ∈ p.2.freevars := by
  induction φ with
  | tt | ff => cases h
  | eq a b | lt a b =>
    obtain h | h := List.mem_append.1 h
    · exact (Term.freevars_substit h).imp_left fun h => ⟨List.mem_append_left _ h.1, h.2⟩
    · exact (Term.freevars_substit h).imp_left fun h => ⟨List.mem_append_right _ h.1, h.2⟩
  | conj φ ψ ihφ ihψ | disj φ ψ ihφ ihψ =>
    obtain h | h := List.mem_append.1 h
    · exact (ihφ h).imp_left fun h => ⟨List.mem_append_left _ h.1, h.2⟩
    · exact (ihψ h).imp_left fun h => ⟨List.mem_append_right _ h.1, h.2⟩
  | neg φ ih => exact ih h

theorem holds_conjuncts (φ : Form) (ρ : ℕ → ℕ) : φ.holds ρ ↔ ∀ ψ ∈ φ.conjuncts, ψ.holds ρ := by
  induction φ with
  | conj φ ψ ihφ ihψ => rw [holds, conjuncts, List.forall_mem_append, ihφ, ihψ]
  | _ => simp [conjuncts]

theorem freevars_conjuncts {φ ψ : Form} (h : ψ ∈ φ.conjuncts) : ψ.freevars ⊆ φ.freevars := by
  induction φ with
  | conj φ χ ihφ ihχ =>
    obtain h | h := List.mem_append.1 h
    · exact List.subset_append_of_subset_left _ (ihφ h)
    · exact List.subset_append_of_subset_right _ (ihχ h)
  | _ => rw [List.mem_singleton.1 h]; exact List.Subset.refl _

theorem holds_disjuncts (φ : Form) (ρ : ℕ → ℕ) : φ.holds ρ ↔ ∃ ψ ∈ φ.disjuncts, ψ.holds ρ := by
  induction φ with
  | disj φ ψ ihφ ihψ =>
    rw [holds, disjuncts, ihφ, ihψ]
    simp only [List.mem_append, or_and_right, exists_or]
  | _ => simp [disjuncts]

theorem freevars_disjuncts {φ ψ : Form} (h : ψ ∈ φ.disjuncts) : ψ.freevars ⊆ φ.freevars := by
  induction φ with
  | disj φ χ ihφ ihχ =>
    obtain h | h := List.mem_append.1 h
    · exact List.subset_append_of_subset_left _ (ihφ h)
    · exact List.subset_append_of_subset_right _ (ihχ h)
  | _ => rw [List.mem_singleton.1 h]; exact List.Subset.refl _

theorem holds_makeConjunction (l : List Form) (φ : Form) (ρ : ℕ → ℕ) :
    (makeConjunction l φ).holds ρ ↔ (∀ ψ ∈ l, ψ.holds ρ) ∧ φ.holds ρ := by
  induction l with
  | nil => simp [makeConjunction]
  | cons ψ l ih =>
    rw [List.forall_mem_cons, and_assoc, ← ih]
    rfl

theorem mem_freevars_makeConjunction {l : List Form} {φ : Form} {x : ℕ} :
    x ∈ (makeConjunction l φ).freevars ↔ (∃ ψ ∈ l, x ∈ ψ.freevars) ∨ x ∈ φ.freevars := by
  induction l with
  | nil => simp [makeConjunction]
  | cons ψ l ih =>
    rw [List.exists_mem_cons_iff, or_assoc, ← ih]
    exact List.mem_append

theorem holds_makeImplication (l : List Form) (φ : Form) (ρ : ℕ → ℕ) :
    (makeImplication l φ).holds ρ ↔ ((∀ ψ ∈ l, ψ.holds ρ) → φ.holds ρ) := by
  induction l with
  | nil => simp [makeImplication]
  | cons ψ l ih =>
    rw [List.forall_mem_cons, and_imp, ← ih, imp_iff_not_or]
    rfl

theorem mem_freevars_makeImplication {l : List Form} {φ : Form} {x : ℕ} :
    x ∈ (makeImplication l φ).freevars ↔ (∃ ψ ∈ l, x ∈ ψ.freevars) ∨ x ∈ φ.freevars := by
  induction l with
  | nil => simp [makeImplication]
  | cons ψ l ih =>
    rw [List.exists_mem_cons_iff, or_assoc, ← ih]
    exact List.mem_append

end Form

def quantSyntax (type : ℕ → Ty) : QuantSyntax ℕ ℕ Term Ty Form where
  type := type
  variableOf := Term.variableOf
  freevars := Term.freevars
  tyFreevars := Ty.freevars
  formFreevars := Form.freevars
  conjuncts := Form.conjuncts
  disjuncts := Form.disjuncts
  negation := Form.negation
  equality := Form.equality
  substit := Term.substit
  tySubstit := Ty.substit
  formSubstit := Form.substit
  tccs t ty := ty.tccs t
  makeConjunction := Form.makeConjunction
  makeImplication := Form.makeImplication
  trueForm := .tt
  falseForm := .ff
  isTrue φ := φ = .tt
  isFalse φ := φ = .ff
  nonempty ty := ty = .nat
  setDifference l keep := l.filter fun p => !keep p
  eval := Term.eval
  mem := Ty.mem
  holds := Form.holds
  eval_congr := Term.eval_congr
  mem_congr {t _ _} h v := by
    cases t with
    | nat => rfl
    | below t => exact iff_of_eq (congrArg (v < ·) (Term.eval_congr h))
  holds_congr := Form.holds_congr
  eval_variable {t _} h ρ := by
    cases t with
    | var y => exact congrArg ρ (Option.some_inj.1 h)
    | num n => cases h
  holds_equality {φ _ _} h ρ := by
    cases φ with
    | eq a b =>
      cases h
      rfl
    | _ => cases h
  freevars_equality {φ _ _} h := by
    cases φ with
    | eq a b =>
      cases h
      exact ⟨List.subset_append_left .., List.subset_append_right ..⟩
    | _ => cases h
  holds_conjuncts := Form.holds_conjuncts
  freevars_conjuncts := Form.freevars_conjuncts
  holds_disjuncts := Form.holds_disjuncts
  freevars_disjuncts := Form.freevars_disjuncts
  holds_negation {φ _} h ρ := by
    cases φ with
    | neg φ =>
      cases h
      rfl
    | _ => cases h
  freevars_negation {φ _} h := by
    cases φ with
    | neg φ =>
      cases h
      exact List.Subset.refl _
    | _ => cases h
  eval_substit := Term.eval_substit
  freevars_substit := Term.freevars_substit
  mem_tySubstit t s ρ v := by
    cases t with
    | nat => rfl
    | below t => exact iff_of_eq (congrArg (v < ·) (Term.eval_substit t s ρ))
  freevars_tySubstit {t _ _} h := by
    cases t with
    | nat => cases h
    | below t => exact Term.freevars_substit h
  holds_formSubstit := Form.holds_substit
  freevars_formSubstit := Form.freevars_substit
  holds_tccs t ty ρ _ := by
    cases ty with
    | nat => simp [Ty.tccs, Ty.mem]
    | below u => simp [Ty.tccs, Ty.mem, Form.holds]
  freevars_tccs {t ty φ x} h hx := by
    cases ty with
    | nat => cases h
    | below u =>
      obtain rfl := List.mem_singleton.1 h
      exact List.mem_append.1 hx
  holds_makeConjunction := Form.holds_makeConjunction
  freevars_makeConjunction := Form.mem_freevars_makeConjunction.1
  freevars_conjunct _ hψ _ hx := Form.mem_freevars_makeConjunction.2 (Or.inl ⟨_, hψ, hx⟩)
  holds_makeImplication := Form.holds_makeImplication
  freevars_makeImplication := Form.mem_freevars_makeImplication.1
  freevars_hypothesis _ hψ _ hx := Form.mem_freevars_makeImplication.2 (Or.inl ⟨_, hψ, hx⟩)
  isTrue_trueForm := rfl
  isFalse_falseForm := rfl
  holds_of_isTrue h _ := of_decide_eq_true h ▸ trivial
  freevars_of_isTrue h := of_decide_eq_true h ▸ rfl
  not_holds_of_isFalse h _ := of_decide_eq_true h ▸ not_false
  freevars_of_isFalse h := of_decide_eq_true h ▸ rfl
  exists_mem_of_nonempty h _ _ := ⟨0, of_decide_eq_true h ▸ trivial⟩
  setDifference_perm _ _ := List.Perm.refl _

/-- The types of `x: nat` and `y: below(x)`, the variables `0` and `1` -/
def belowType : ℕ → Ty
  | 1 => .below (.var 0)
  | _ => .nat

def belowQuant (body : Form) (h : body.freevars ⊆ [0, 1]) : QuantExpr (quantSyntax belowType) where
  bindings := [0, 1]
  body := body
  nodup := by decide
  inOrder := by simp [InOrder, quantSyntax, belowType, Ty.freevars, Term.freevars]
  outer := by
    intro x hx
    have hnone : (quantSyntax belowType).quantFreevars [0, 1] body = [] := by
      have hbody : body.freevars.filter (· ∉ [0, 1]) = [] :=
        List.filter_eq_nil_iff.2 fun y hy => by simpa [or_iff_not_imp_left] using h hy
      exact hbody
    rw [hnone] at hx
    cases hx

/-- `EXISTS (x: nat, y: below(x)): x = 5 AND y = 3` -/
def existsBelow : QuantExpr (quantSyntax belowType) :=
  belowQuant (.conj (.eq (.var 0) (.num 5)) (.eq (.var 1) (.num 3))) (by decide)

/-- `FORALL (x: nat, y: below(x)): x /= 5 OR y /= 3` -/
def forallBelow : QuantExpr (quantSyntax belowType) :=
  belowQuant (.disj (.neg (.eq (.var 0) (.num 5))) (.neg (.eq (.var 1) (.num 3)))) (by decide)

end PVS.Assert.Arith
