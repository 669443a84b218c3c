import Mathlib.Data.Sum.Basic
import PVS.Prover.Flatten

/-! `split`: a formula of the sequent is replaced by each of its conjuncts in turn. -/

namespace PVS.Prover

variable {α τ D : Type} [DecidableEq α] [DecidableEq τ]

namespace Formula

/-! ### Conjuncts of a formula -/

section

variable (tccsNone : Bool)

mutual

/-- `and++` -/
def andPlusPlus (form : Formula α τ) (depth : Option ℤ) : List (Formula α τ) :=
  if depth = some 0 then [form]
  else
    match form with
    | conjunction f g =>
      andPlusPlus f (depth.map (· - 1)) ++ andPlusPlus g (depth.map (· - 1))
    | iff f g => [makeImplication f g, makeImplication g f]
    | cases f => andPlusPlus f (depth.map (· - 1))
    | branch c f g => [makeImplication c f, makeImplication (negateTyped c) g]
    | negation f =>
      match andPlusNegation f depth with
      | [] => [negation f]
      | l => l
    | form => [form]
termination_by 2 * form.size
decreasing_by
  · simp only [size]
    omega
  · simp only [size]
    omega
  · simp only [size]
    omega
  · simp only [size]
    omega

/-- `and+-negation` -/
def andPlusNegation (form : Formula α τ) (depth : Option ℤ) : List (Formula α τ) :=
  match form with
  | implication f g =>
    andPlusPlus (negateTyped g) (depth.map (· - 1)) ++ andPlusPlus f (depth.map (· - 1))
  | disjunction f g =>
    andPlusPlus (negateTyped f) (depth.map (· - 1)) ++
      andPlusPlus (negateTyped g) (depth.map (· - 1))
  | negation f => andPlusPlus f (depth.map (· - 1))
  | cases f => andPlusPlus (negateTyped f) (depth.map (· - 1))
  | branch c f g =>
    [makeNegation (makeConjunction tccsNone c f),
      makeNegation (makeConjunction tccsNone (makeNegation c) g)]
  | _ => []
termination_by 2 * form.size + 1
decreasing_by
  · have h := size_negateTyped_le g
    simp only [size]
    omega
  · simp only [size]
    omega
  · have h := size_negateTyped_le f
    simp only [size]
    omega
  · have h := size_negateTyped_le g
    simp only [size]
    omega
  · simp only [size]
    omega
  · have h := size_negateTyped_le f
    simp only [size]
    omega

end

/-- `and+` -/
def andPlus (form : Formula α τ) (depth : Option ℤ) : List (Formula α τ) :=
  andPlusPlus tccsNone form depth

end

/-- All of the formulas hold. -/
def AllHold (v : Valuation α τ D) (l : List (Formula α τ)) : Prop := ∀ f ∈ l, f.Holds v

section

variable {v : Valuation α τ D}

omit [DecidableEq α] [DecidableEq τ] in
@[simp] theorem allHold_append (l l' : List (Formula α τ)) :
    AllHold v (l ++ l') ↔ AllHold v l ∧ AllHold v l' := List.forall_mem_append

omit [DecidableEq α] [DecidableEq τ] in
@[simp] theorem allHold_singleton (f : Formula α τ) : AllHold v [f] ↔ f.Holds v := by
  simp [AllHold]

omit [DecidableEq α] [DecidableEq τ] in
@[simp] theorem allHold_pair (f g : Formula α τ) :
    AllHold v [f, g] ↔ f.Holds v ∧ g.Holds v := by
  simp [AllHold]

/-- The conjuncts have the truth value of the formula, those of a negation too if there are any. -/
theorem allHold_andPlusPlus (tccsNone : Bool) (form : Formula α τ) (depth : Option ℤ) :
    AllHold v (andPlusPlus tccsNone form depth) ↔ form.Holds v := by
  induction hn : form.size using Nat.strong_induction_on generalizing form depth with
  | _ n ih =>
    have hsub : ∀ (g : Formula α τ) (depth : Option ℤ), g.size < form.size →
        (AllHold v (andPlusPlus tccsNone g depth) ↔ g.Holds v) := fun g depth h =>
      ih g.size (hn ▸ h) g depth rfl
    have hneg : ∀ f, form = negation f → ∀ depth, andPlusNegation tccsNone f depth ≠ [] →
        (AllHold v (andPlusNegation tccsNone f depth) ↔ form.Holds v) := by
      rintro f rfl depth hne
      rw [andPlusNegation.eq_def] at hne ⊢
      split at hne
      · rename_i f g
        have hg := size_negateTyped_le g
        rw [allHold_append, hsub _ _ (by simp only [size]; omega),
          hsub _ _ (by simp only [size]; omega), holds_negateTyped]
        simp only [Holds]
        tauto
      · rename_i f g
        have hf := size_negateTyped_le f
        have hg := size_negateTyped_le g
        rw [allHold_append, hsub _ _ (by simp only [size]; omega),
          hsub _ _ (by simp only [size]; omega), holds_negateTyped, holds_negateTyped]
        simp only [Holds]
        tauto
      · rename_i f
        rw [hsub _ _ (by simp only [size]; omega)]
        simp only [Holds, not_not]
      · rename_i f
        have hf := size_negateTyped_le f
        rw [hsub _ _ (by simp only [size]; omega), holds_negateTyped]
        rfl
      · simp only [allHold_pair, holds_makeNegation, holds_makeConjunction, Holds]
        tauto
      · exact absurd rfl hne
    rw [andPlusPlus.eq_def]
    split
    · exact allHold_singleton form
    · split
      · rw [allHold_append, hsub _ _ (by simp only [size]; omega),
          hsub _ _ (by simp only [size]; omega)]
        rfl
      · simp only [allHold_pair, holds_makeImplication, Holds]
        tauto
      · rw [hsub _ _ (by simp only [size]; omega)]
        rfl
      · simp only [allHold_pair, holds_makeImplication, holds_negateTyped, Holds]
      · rename_i f
        split
        · exact allHold_singleton _
        · rename_i hne
          exact hneg f rfl depth hne
      · exact allHold_singleton _

end

omit [DecidableEq α] [DecidableEq τ] in
/-- `and+form?` -/
def isAndForm : Formula α τ → Bool
  | branch _ _ _ => Bool.true
  | conjunction _ _ => Bool.true
  | iff _ _ => Bool.true
  | negation (branch _ _ _) => Bool.true
  | negation (negation _) => Bool.true
  | negation (disjunction _ _) => Bool.true
  | negation (implication _ _) => Bool.true
  | _ => Bool.false

end Formula

/-! ### The rule -/

/-- The depth as it is given. -/
inductive Depth
  | nil
  | int (n : ℤ)
  | other
  deriving DecidableEq

def Depth.bound : Depth → Option ℤ
  | .int n => some n
  | _ => none

/-- With one label the labels themselves are collected, and there is an error if no formula is left
for a label but the last. -/
def labelSforms : List (SForm α τ) → List (List String) → Option (List (SForm α τ ⊕ List String))
  | sforms, [] => some (sforms.map .inl)
  | sforms, [lbl] => some (sforms.map fun _ => .inr lbl)
  | [], _ :: _ => none
  | x :: sforms, lbl :: labels =>
    (labelSforms sforms labels).map fun l => .inl { x with label := lbl } :: l

def sformSelector (sformnum : Option ℤ) : Fnums :=
  .cons (match sformnum with | some n => .atom (.num n) | none => .nil) .nil

/-- The goals hold whatever the labelling gives; `none` is an error. -/
def splitStep (tccsNone : Bool) (sformnum : Fnum) (goalsequent : List (SForm α τ)) (depth : Depth)
    (labels : List (List String)) : Option (Signal × List (List (SForm α τ ⊕ List String))) :=
  let sformnum := findSform goalsequent sformnum fun sf => sf.formula.isAndForm
  if depth = .other then some (.x, [])
  else
    match selectSeq goalsequent (sformSelector sformnum) with
    | [] => some (.x, [])
    | selSform :: _ =>
      if !selSform.formula.isAndForm || depth = .int 0 then some (.x, [])
      else
        let newSforms := deleteSeq goalsequent (sformSelector sformnum)
        let conjuncts := Formula.andPlus tccsNone selSform.formula depth.bound
        (labelSforms (conjuncts.map fun x => { selSform with formula := x }) labels).map
          fun sforms => (.query, sforms.map fun x => x :: newSforms.map .inl)

/-! ### The formula that is split -/

section

omit [DecidableEq α] [DecidableEq τ]

theorem selected_num (n : ℤ) (p : Position α τ) : p.selected [.num n] = true ↔ p.number = n := by
  have hstar : Fnum.sym "*" ∉ [Fnum.num n] := by simp
  rw [Position.selected, inSformnums_iff hstar, Position.number, sign_eq]
  cases p.sform.formula.isNegation with
  | true => simp
  | false => simp

/-- A number selects one formula. -/
theorem selectSeq_number {seq : List (SForm α τ)} {p : Position α τ} (hp : p ∈ positions seq 1 (-1)) :
    ∃ before after, seq = before ++ p.sform :: after ∧
      selectSeq seq (sformSelector (some p.number)) = [p.sform] ∧
      deleteSeq seq (sformSelector (some p.number)) = before ++ after := by
  obtain ⟨l, l', e⟩ := List.append_of_mem hp
  have hpairwise : (positions seq 1 (-1)).Pairwise fun p q => p.number ≠ q.number :=
    pairwise_number (by decide) (by decide)
  rw [e, List.pairwise_append, List.pairwise_cons] at hpairwise
  obtain ⟨-, ⟨hafter, -⟩, hbefore⟩ := hpairwise
  have hclean : cleanupFnums (sformSelector (some p.number)) = [.num p.number] := rfl
  have hone : ∀ q : Position α τ, q.number = p.number → q.selected [.num p.number] = true :=
    fun q => (selected_num p.number q).2
  have hother : ∀ q ∈ l ++ l', q.selected [.num p.number] = false := by
    intro q hq
    rw [Bool.eq_false_iff]
    intro h
    rw [selected_num] at h
    obtain hq | hq := List.mem_append.1 hq
    · exact hbefore q hq p List.mem_cons_self h
    · exact hafter q hq h.symm
  have hl : ∀ q ∈ l, q.selected [.num p.number] = false := fun q hq =>
    hother q (List.mem_append_left _ hq)
  have hl' : ∀ q ∈ l', q.selected [.num p.number] = false := fun q hq =>
    hother q (List.mem_append_right _ hq)
  refine ⟨l.map Position.sform, l'.map Position.sform, ?_, ?_, ?_⟩
  · rw [← map_sform_positions seq 1 (-1), e, List.map_append, List.map_cons]
  · rw [selectSeq_eq, hclean, e, List.filter_append, List.filter_cons_of_pos (hone p rfl),
      List.filter_eq_nil_iff.2 (fun q hq => by simp [hl q hq]),
      List.filter_eq_nil_iff.2 (fun q hq => by simp [hl' q hq])]
    rfl
  · rw [deleteSeq_eq, hclean, e, List.filter_append,
      List.filter_cons_of_neg (by rw [hone p rfl]; decide),
      List.filter_eq_self.2 (fun q hq => by simp [hl q hq]),
      List.filter_eq_self.2 (fun q hq => by simp [hl' q hq]), List.map_append]

/-- What `find-sform` finds is selected by its number and satisfies the predicate. -/
theorem findSform_some {seq : List (SForm α τ)} {sformnum : Fnum} {pred : SForm α τ → Bool} {n : ℤ}
    (h : findSform seq sformnum pred = some n) :
    ∃ p ∈ positions seq 1 (-1), p.number = n ∧ pred p.sform = true := by
  rw [findSform, findSform1_eq] at h
  have hmem := List.mem_of_mem_head? h
  obtain ⟨p, hp, rfl⟩ := List.mem_map.1 hmem
  rw [List.mem_filter, Bool.and_eq_true] at hp
  exact ⟨p, hp.1, rfl, hp.2.2⟩

/-! ### Labels -/

theorem labelSforms_one (sforms : List (SForm α τ)) (lbl : List String) :
    labelSforms sforms [lbl] = some (sforms.map fun _ => .inr lbl) := by
  cases sforms <;> rfl

theorem labelSforms_cons (x : SForm α τ) (sforms : List (SForm α τ)) (lbl lbl' : List String)
    (labels : List (List String)) : labelSforms (x :: sforms) (lbl :: lbl' :: labels) =
      (labelSforms sforms (lbl' :: labels)).map fun l => .inl { x with label := lbl } :: l := by
  rw [labelSforms]
  simp

/-- If only formulas are collected, they are those given, but for their labels. -/
theorem map_formula_labelSforms {sforms new : List (SForm α τ)} {labels : List (List String)}
    (h : labelSforms sforms labels = some (new.map .inl)) :
    new.map SForm.formula = sforms.map SForm.formula := by
  induction labels generalizing sforms new with
  | nil =>
    have hnil : labelSforms sforms [] = some (sforms.map .inl) := by cases sforms <;> rfl
    rw [hnil] at h
    rw [List.map_injective_iff.2 Sum.inl_injective (Option.some.inj h)]
  | cons lbl labels ih =>
    cases labels with
    | nil =>
      rw [labelSforms_one] at h
      cases sforms <;> cases new <;> simp_all
    | cons lbl' labels =>
      cases sforms with
      | nil => simp [labelSforms] at h
      | cons x sforms =>
        rw [labelSforms_cons] at h
        obtain ⟨l, hl, e⟩ := Option.map_eq_some_iff.1 h
        cases new with
        | nil => simp at e
        | cons y new =>
          obtain ⟨hy, rfl⟩ := List.cons_eq_cons.1 e
          obtain rfl := Sum.inl_injective hy
          rw [List.map_cons, List.map_cons, ih hl]

/-- Only formulas are collected if the labels run out first or just after them. -/
theorem labelSforms_sforms_iff (sforms : List (SForm α τ)) (labels : List (List String)) :
    (∃ new : List (SForm α τ), labelSforms sforms labels = some (new.map .inl)) ↔
      labels = [] ∨ labels.length = sforms.length + 1 := by
  induction labels generalizing sforms with
  | nil => exact ⟨fun _ => .inl rfl, fun _ => ⟨sforms, by cases sforms <;> rfl⟩⟩
  | cons lbl labels ih =>
    cases labels with
    | nil =>
      rw [labelSforms_one]
      cases sforms with
      | nil => exact ⟨fun _ => .inr rfl, fun _ => ⟨[], rfl⟩⟩
      | cons x sforms =>
        constructor
        · rintro ⟨new, e⟩
          cases new <;> simp at e
        · simp
    | cons lbl' labels =>
      cases sforms with
      | nil => simp [labelSforms]
      | cons x sforms =>
        have hlength : lbl :: lbl' :: labels = [] ∨
            (lbl :: lbl' :: labels).length = (x :: sforms).length + 1 ↔
            lbl' :: labels = [] ∨ (lbl' :: labels).length = sforms.length + 1 := by simp
        rw [hlength, ← ih sforms, labelSforms_cons]
        constructor
        · rintro ⟨new, e⟩
          obtain ⟨l, hl, e⟩ := Option.map_eq_some_iff.1 e
          cases new with
          | nil => simp at e
          | cons y new => exact ⟨new, by rw [hl, (List.cons_eq_cons.1 e).2]⟩
        · rintro ⟨new, e⟩
          exact ⟨{ x with label := lbl } :: new, by rw [e]; rfl⟩

end

/-! ### What the rule gives -/

/-- Nothing, or for each conjunct of a formula a sequent with the other formulas, which hold together
when the goal does. -/
def Splits (tccsNone : Bool) (seq : List (SForm α τ)) (depth : Option ℤ)
    (r : Signal × List (List (SForm α τ ⊕ List String))) : Prop :=
  r = (.x, []) ∨
    ∃ (before after new : List (SForm α τ)) (x : SForm α τ), seq = before ++ x :: after ∧
      new.map SForm.formula = Formula.andPlus tccsNone x.formula depth ∧
      r = (.query, new.map fun y => .inl y :: (before ++ after).map .inl) ∧
      ∀ {D : Type} (v : Valuation α τ D),
        (∀ y ∈ new, SequentHolds v (y :: (before ++ after))) ↔ SequentHolds v seq

omit [DecidableEq α] [DecidableEq τ] in
theorem sequentHolds_cons {v : Valuation α τ D} (x : SForm α τ) (l : List (SForm α τ)) :
    SequentHolds v (x :: l) ↔ x.formula.Holds v ∨ SequentHolds v l := by
  simp [SequentHolds]

theorem sequents_hold_iff {v : Valuation α τ D} {tccsNone : Bool} {depth : Option ℤ}
    {before after new : List (SForm α τ)} {x : SForm α τ}
    (hnew : new.map SForm.formula = Formula.andPlus tccsNone x.formula depth) :
    (∀ y ∈ new, SequentHolds v (y :: (before ++ after))) ↔
      SequentHolds v (before ++ x :: after) := by
  have hall : (∀ y ∈ new, y.formula.Holds v) ↔ x.formula.Holds v := by
    rw [← Formula.allHold_andPlusPlus tccsNone x.formula depth, ← Formula.andPlus, ← hnew]
    simp [Formula.AllHold]
  have hgoal : SequentHolds v (before ++ x :: after) ↔
      x.formula.Holds v ∨ SequentHolds v (before ++ after) := by
    rw [sequentHolds_append, sequentHolds_cons, sequentHolds_append]
    exact or_left_comm
  rw [hgoal, ← hall]
  simp only [sequentHolds_cons]
  by_cases hrest : SequentHolds v (before ++ after)
  · simp [hrest]
  · simp [hrest]

/-- The rule gives sequents that amount to the goal if there are no labels, or one more than there
are conjuncts of the formula it finds, and else it does not. -/
theorem splitStep_splits_iff (tccsNone : Bool) (sformnum : Fnum) (seq : List (SForm α τ))
    (depth : Depth) (labels : List (List String)) :
    (∃ r, splitStep tccsNone sformnum seq depth labels = some r ∧
      Splits tccsNone seq depth.bound r) ↔
      ∀ p ∈ positions seq 1 (-1),
        findSform seq sformnum (fun sf => sf.formula.isAndForm) = some p.number →
        depth ≠ .other → depth ≠ .int 0 → labels = [] ∨
          labels.length = (Formula.andPlus tccsNone p.sform.formula depth.bound).length + 1 := by
  unfold splitStep
  by_cases hother : depth = .other
  · rw [if_pos hother]
    exact ⟨fun _ p _ _ h => absurd hother h, fun _ => ⟨_, rfl, .inl rfl⟩⟩
  rw [if_neg hother]
  cases hfind : findSform seq sformnum fun sf => sf.formula.isAndForm with
  | none =>
    have hselect : selectSeq seq (sformSelector none) = [] := by
      rw [selectSeq_eq]
      simp [Position.selected, inSformnums, cleanupFnums, sformSelector]
    rw [hselect]
    exact ⟨fun _ p _ h => absurd h (by simp), fun _ => ⟨_, rfl, .inl rfl⟩⟩
  | some n =>
    obtain ⟨p, hp, rfl, hand⟩ := findSform_some hfind
    obtain ⟨before, after, hseq, hselect, hdelete⟩ := selectSeq_number hp
    rw [hselect, hdelete]
    by_cases hzero : depth = .int 0
    · simp only [hzero, decide_true, Bool.or_true, if_true]
      exact ⟨fun _ p _ _ _ h => absurd rfl h, fun _ => ⟨_, rfl, .inl rfl⟩⟩
    have hgo : (!p.sform.formula.isAndForm || decide (depth = .int 0)) = false := by simp [hand, hzero]
    simp only [hgo, Bool.false_eq_true, if_false]
    generalize hconjuncts : Formula.andPlus tccsNone p.sform.formula depth.bound = conjuncts
    have hcondition : (∀ q ∈ positions seq 1 (-1), some p.number = some q.number → depth ≠ .other →
        depth ≠ .int 0 → labels = [] ∨ labels.length =
          (Formula.andPlus tccsNone q.sform.formula depth.bound).length + 1) ↔
        labels = [] ∨ labels.length = conjuncts.length + 1 := by
      constructor
      · intro h
        rw [← hconjuncts]
        exact h p hp rfl hother hzero
      · intro h q hq e _ _
        have hnodup : ((positions seq 1 (-1)).map Position.number).Nodup :=
          List.pairwise_map.2 (pairwise_number (by decide) (by decide))
        rw [← List.inj_on_of_nodup_map hnodup hp hq (Option.some.inj e), hconjuncts]
        exact h
    generalize hsforms : conjuncts.map (fun x => { p.sform with formula := x }) = sforms
    have hformula : sforms.map SForm.formula = conjuncts := by
      rw [← hsforms, List.map_map]
      exact List.map_id conjuncts
    have hlength : conjuncts.length = sforms.length := by rw [← hformula, List.length_map]
    rw [hcondition, hlength, ← labelSforms_sforms_iff sforms labels]
    constructor
    · rintro ⟨r, hr, hsplits⟩
      obtain ⟨l, hl, rfl⟩ := Option.map_eq_some_iff.1 hr
      obtain hx | ⟨before', after', new, x, -, -, e, -⟩ := hsplits
      · simp at hx
      · refine ⟨new, ?_⟩
        have hheads := congrArg (List.map List.head?) (Prod.mk.inj e).2
        rw [List.map_map, List.map_map] at hheads
        have hnew : l.map some = (new.map .inl).map some := by
          rw [List.map_map]
          exact hheads
        rw [hl, List.map_injective_iff.2 (fun _ _ => Option.some.inj) hnew]
    · rintro ⟨new, hnew⟩
      have hconjunct : new.map SForm.formula =
          Formula.andPlus tccsNone p.sform.formula depth.bound := by
        rw [map_formula_labelSforms hnew, hformula, hconjuncts]
      rw [hnew]
      refine ⟨_, rfl, .inr ⟨before, after, new, p.sform, hseq, hconjunct, ?_, fun v => ?_⟩⟩
      · simp only [List.map_map]
        rfl
      · rw [hseq]
        exact sequents_hold_iff hconjunct

set_option synthInstance.maxSize 400 in
/-- A AND B split with one label: its two goals are the label, twice. -/
theorem not_splitStep_splits : ¬ ∃ r, splitStep true (.num 1)
    [(⟨.conjunction (.atom 0) (.atom 1), []⟩ : SForm ℕ ℕ)] .nil [["l"]] = some r ∧
      Splits true [(⟨.conjunction (.atom 0) (.atom 1), []⟩ : SForm ℕ ℕ)] none r := by
  have hsplit : splitStep true (.num 1) [(⟨.conjunction (.atom 0) (.atom 1), []⟩ : SForm ℕ ℕ)] .nil
      [["l"]] = some (.query, [[.inr ["l"]], [.inr ["l"]]]) := by
    decide +kernel
  rw [hsplit]
  rintro ⟨r, hr, hsplits⟩
  cases hr
  obtain hx | ⟨before, after, new, x, -, -, e, -⟩ := hsplits
  · simp at hx
  · cases new <;> simp at e

end PVS.Prover
