import Mathlib.Data.List.Basic
import Mathlib.Tactic.Tauto

/-! Boolean expressions at the top of a sequent formula, and the functions that build them. -/

namespace PVS.Prover

/-- `cases` holds what `translate-cases-to-if` makes of the CASES expression. Conjunctions and
disjunctions have two arguments. -/
inductive Formula (α τ : Type)
  | atom (a : α)
  | true
  | false
  | negation (f : Formula α τ)
  | conjunction (f g : Formula α τ)
  | disjunction (f g : Formula α τ)
  | implication (f g : Formula α τ)
  | iff (f g : Formula α τ)
  | branch (c f g : Formula α τ)
  | cases (f : Formula α τ)
  | equation (s t : τ)
  | disequation (s t : τ)
  deriving DecidableEq

/-- Truth values for the atoms and values for the terms. -/
structure Valuation (α τ D : Type) where
  atom : α → Prop
  term : τ → D

variable {α τ D : Type} {v : Valuation α τ D}

namespace Formula

def Holds (v : Valuation α τ D) : Formula α τ → Prop
  | atom a => v.atom a
  | true => True
  | false => False
  | negation f => ¬ f.Holds v
  | conjunction f g => f.Holds v ∧ g.Holds v
  | disjunction f g => f.Holds v ∨ g.Holds v
  | implication f g => f.Holds v → g.Holds v
  | iff f g => f.Holds v ↔ g.Holds v
  | branch c f g => (c.Holds v → f.Holds v) ∧ (¬ c.Holds v → g.Holds v)
  | cases f => f.Holds v
  | equation s t => v.term s = v.term t
  | disequation s t => v.term s ≠ v.term t

def isNegation : Formula α τ → Bool
  | negation _ => Bool.true
  | _ => Bool.false

def size : Formula α τ → ℕ
  | negation f => f.size + 1
  | conjunction f g => f.size + g.size + 3
  | disjunction f g => f.size + g.size + 3
  | implication f g => f.size + g.size + 3
  | iff f g => f.size + g.size + 5
  | branch c f g => c.size + f.size + g.size + 3
  | cases f => f.size + 3
  | _ => 1

/-- One of the formulas holds. -/
def SomeHolds (v : Valuation α τ D) (l : List (Formula α τ)) : Prop := ∃ f ∈ l, f.Holds v

@[simp] theorem someHolds_append (l l' : List (Formula α τ)) :
    SomeHolds v (l ++ l') ↔ SomeHolds v l ∨ SomeHolds v l' := by
  simp only [SomeHolds, List.mem_append, or_and_right, exists_or]

@[simp] theorem someHolds_singleton (f : Formula α τ) : SomeHolds v [f] ↔ f.Holds v := by
  simp [SomeHolds]

/-! ### Building formulas -/

section

variable [DecidableEq α] [DecidableEq τ]

/-- `make!-negation` -/
def makeNegation (ex : Formula α τ) : Formula α τ :=
  if ex = true then false else if ex = false then true else negation ex

/-- `negate!` -/
def negateTyped : Formula α τ → Formula α τ
  | negation f => f
  | f => makeNegation f

/-- `negate`, with `tccsNone` for a `*generate-tccs*` that is `'none`. -/
def negate (tccsNone : Bool) : Formula α τ → Formula α τ
  | negation f => f
  | f => if tccsNone then makeNegation f else negation f

/-- `make!-implication` -/
def makeImplication (ex1 ex2 : Formula α τ) : Formula α τ :=
  if ex1 = true then ex2
  else if ex1 = false then true
  else if ex2 = true then true
  else if ex2 = false then makeNegation ex1
  else implication ex1 ex2

mutual

def conjuncts (tccsNone : Bool) : Formula α τ → List (Formula α τ)
  | negation f => (disjuncts tccsNone f).map (negate tccsNone)
  | conjunction f g => conjuncts tccsNone f ++ conjuncts tccsNone g
  | f => [f]

def disjuncts (tccsNone : Bool) : Formula α τ → List (Formula α τ)
  | negation f => (conjuncts tccsNone f).map (negate tccsNone)
  | disjunction f g => disjuncts tccsNone f ++ disjuncts tccsNone g
  | implication f g => (conjuncts tccsNone f).map (negate tccsNone) ++ disjuncts tccsNone g
  | f => [f]

end

def isConjunction : Formula α τ → Bool
  | conjunction _ _ => Bool.true
  | _ => Bool.false

/-- `make!-conjunction`, of which the last but one case is apart. -/
def makeConjunctionFlat (ex1 ex2 : Formula α τ) : Formula α τ :=
  if ex1 = true then ex2
  else if ex1 = false then false
  else if ex2 = true then ex1
  else if ex2 = false then false
  else if ex1 = ex2 then ex1
  else conjunction ex1 ex2

/-- `make!-conjunction*` goes on with `make!-conjunction`, but conjuncts are no conjunctions. -/
def makeConjunction (tccsNone : Bool) (ex1 ex2 : Formula α τ) : Formula α τ :=
  if isConjunction ex1 && isConjunction ex2 && !(ex1 == ex2) then
    let conj1 := conjuncts tccsNone ex1
    let conj2 := (conjuncts tccsNone ex2).filter fun conj => !(conj ∈ conj1)
    (conj1 ++ conj2).foldr makeConjunctionFlat true
  else makeConjunctionFlat ex1 ex2

/-! ### What is built -/

attribute [local simp] Holds

variable {tccsNone : Bool}

@[simp] theorem holds_makeNegation (f : Formula α τ) :
    (makeNegation f).Holds v ↔ ¬ f.Holds v := by
  unfold makeNegation
  split_ifs with htrue hfalse
  · simp [htrue, Holds]
  · simp [hfalse, Holds]
  · rfl

@[simp] theorem holds_negateTyped (f : Formula α τ) : (negateTyped f).Holds v ↔ ¬ f.Holds v := by
  unfold negateTyped
  split
  · rw [Holds, not_not]
  · exact holds_makeNegation f

@[simp] theorem holds_negate (f : Formula α τ) : (negate tccsNone f).Holds v ↔ ¬ f.Holds v := by
  unfold negate
  split
  · rw [Holds, not_not]
  · split
    · exact holds_makeNegation f
    · rfl

@[simp] theorem holds_makeImplication (f g : Formula α τ) :
    (makeImplication f g).Holds v ↔ (f.Holds v → g.Holds v) := by
  unfold makeImplication
  split_ifs with h1 h2 h3 h4
  · simp [h1, Holds]
  · simp [h2, Holds]
  · simp [h3, Holds]
  · simp [h4, Holds]
  · rfl

variable (v tccsNone) in
theorem holds_conjuncts_disjuncts (f : Formula α τ) :
    ((∀ c ∈ conjuncts tccsNone f, c.Holds v) ↔ f.Holds v) ∧
      ((∃ d ∈ disjuncts tccsNone f, d.Holds v) ↔ f.Holds v) := by
  induction f with
  | negation f ih =>
    rw [conjuncts, disjuncts, Holds, ← ih.2]
    constructor
    · simp
    · rw [ih.2, ← ih.1]
      simp
  | conjunction f g ihf ihg =>
    have hd : disjuncts tccsNone (conjunction f g) = [conjunction f g] := by simp [disjuncts]
    rw [conjuncts, hd]
    refine ⟨?_, by simp⟩
    rw [List.forall_mem_append, ihf.1, ihg.1]
    rfl
  | disjunction f g ihf ihg =>
    have hc : conjuncts tccsNone (disjunction f g) = [disjunction f g] := by simp [conjuncts]
    rw [disjuncts, hc]
    refine ⟨by simp, ?_⟩
    simp only [List.mem_append, or_and_right, exists_or, ihf.2, ihg.2]
    rfl
  | implication f g ihf ihg =>
    have hc : conjuncts tccsNone (implication f g) = [implication f g] := by simp [conjuncts]
    rw [disjuncts, hc]
    refine ⟨by simp, ?_⟩
    simp only [List.mem_append, List.mem_map, or_and_right, exists_or, ihg.2]
    rw [Holds, ← ihf.1, imp_iff_not_or]
    simp
  | _ => simp [conjuncts, disjuncts]

@[simp] theorem holds_makeConjunctionFlat (f g : Formula α τ) :
    (makeConjunctionFlat f g).Holds v ↔ f.Holds v ∧ g.Holds v := by
  unfold makeConjunctionFlat
  split_ifs with h1 h2 h3 h4 h5
  · simp [h1, Holds]
  · simp [h2, Holds]
  · simp [h3, Holds]
  · simp [h4, Holds]
  · simp [h5]
  · rfl

@[simp] theorem holds_makeConjunction (f g : Formula α τ) :
    (makeConjunction tccsNone f g).Holds v ↔ f.Holds v ∧ g.Holds v := by
  have hfold : ∀ l : List (Formula α τ), (l.foldr makeConjunctionFlat true).Holds v ↔
      ∀ c ∈ l, c.Holds v := by
    intro l
    induction l with
    | nil => simp [Holds]
    | cons c l ih => rw [List.foldr_cons, holds_makeConjunctionFlat, ih, List.forall_mem_cons]
  unfold makeConjunction
  split
  · have hf := (holds_conjuncts_disjuncts v tccsNone f).1
    have hg := (holds_conjuncts_disjuncts v tccsNone g).1
    rw [hfold, List.forall_mem_append, hf]
    refine and_congr_right fun h => ?_
    rw [← hg]
    refine ⟨fun hrest c hc => ?_, fun hall c hc => hall c (List.mem_of_mem_filter hc)⟩
    by_cases hmem : c ∈ conjuncts tccsNone f
    · exact hf.2 h c hmem
    · exact hrest c (List.mem_filter.2 ⟨hc, by simpa using hmem⟩)
  · exact holds_makeConjunctionFlat f g

end

end Formula

end PVS.Prover
