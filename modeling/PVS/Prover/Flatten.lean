import PVS.Prover.Sequent

/-! `flatten`: the formulas of a sequent are replaced by their disjuncts. -/

namespace PVS.Prover

/-- What a rule answers: `X`, `?` or `!`. -/
inductive Signal
  | x
  | query
  | bang
  deriving DecidableEq

variable {α τ D : Type} [DecidableEq α] [DecidableEq τ]

namespace Formula

theorem size_makeNegation_le (f : Formula α τ) : (makeNegation f).size ≤ f.size + 1 := by
  unfold makeNegation
  split_ifs
  · simp [size]
  · simp [size]
  · exact Nat.le_refl _

theorem size_negateTyped_le (f : Formula α τ) : (negateTyped f).size ≤ f.size + 1 := by
  unfold negateTyped
  split
  · simp only [size]
    omega
  · exact size_makeNegation_le f

theorem size_negate_le (tccsNone : Bool) (f : Formula α τ) : (negate tccsNone f).size ≤ f.size + 1 := by
  unfold negate
  split
  · simp only [size]
    omega
  · split
    · exact size_makeNegation_le f
    · exact Nat.le_refl _

theorem size_makeImplication_le (f g : Formula α τ) :
    (makeImplication f g).size ≤ f.size + g.size + 3 := by
  unfold makeImplication
  split_ifs
  · omega
  · simp only [size]
    omega
  · simp only [size]
    omega
  · have h := size_makeNegation_le f
    omega
  · exact Nat.le_refl _

/-! ### Disjuncts of a formula -/

section

variable (tccsNone : Bool)

mutual

def simplifyDisjunct (formula : Formula α τ) (depth : Option ℤ) : List (Formula α τ) :=
  if depth = some 0 then [formula] else simplifyDisjunct1 formula (depth.map (· - 1))
termination_by 3 * formula.size + 1

/-- `simplify-disjunct*` -/
def simplifyDisjunct1 (formula : Formula α τ) (depth : Option ℤ) : List (Formula α τ) :=
  match formula with
  | disjunction f g => simplifyDisjunct f depth ++ simplifyDisjunct g depth
  | implication f g => simplifyDisjunct (negate tccsNone f) depth ++ simplifyDisjunct g depth
  | disequation s t => [negate tccsNone (equation s t)]
  | negation f =>
    match simplifyDisjunctNeg f depth with
    | [] => [negation f]
    | l => l
  | f => [f]
termination_by 3 * formula.size
decreasing_by
  · simp only [size]
    omega
  · simp only [size]
    omega
  · have h := size_negate_le tccsNone f
    simp only [size]
    omega
  · simp only [size]
    omega
  · simp only [size]
    omega

/-- `simplify-disjunct-neg` and `simplify-disjunct-neg*` -/
def simplifyDisjunctNeg (formula : Formula α τ) (depth : Option ℤ) : List (Formula α τ) :=
  match formula with
  | conjunction f g =>
    simplifyDisjunct (negate tccsNone f) depth ++ simplifyDisjunct (negate tccsNone g) depth
  | disequation s t => [equation s t]
  | negation f => simplifyDisjunct f depth
  | iff f g =>
    simplifyDisjunct (negate tccsNone (makeImplication f g)) depth ++
      simplifyDisjunct (negate tccsNone (makeImplication g f)) depth
  | _ => []
termination_by 3 * formula.size + 2
decreasing_by
  · have h := size_negate_le tccsNone f
    simp only [size]
    omega
  · have h := size_negate_le tccsNone g
    simp only [size]
    omega
  · simp only [size]
    omega
  · have h := size_negate_le tccsNone (makeImplication f g)
    have h' := size_makeImplication_le f g
    simp only [size]
    omega
  · have h := size_negate_le tccsNone (makeImplication g f)
    have h' := size_makeImplication_le g f
    simp only [size]
    omega

end

variable {v : Valuation α τ D}

/-- The disjuncts have the truth value of the formula. -/
theorem someHolds_simplifyDisjunct (f : Formula α τ) (depth : Option ℤ) :
    SomeHolds v (simplifyDisjunct tccsNone f depth) ↔ f.Holds v := by
  induction hn : f.size using Nat.strong_induction_on generalizing f depth with
  | _ n ih =>
    have hsub : ∀ (g : Formula α τ) (depth : Option ℤ), g.size < f.size →
        (SomeHolds v (simplifyDisjunct tccsNone g depth) ↔ g.Holds v) := fun g depth h =>
      ih g.size (hn ▸ h) g depth rfl
    have hneg : ∀ g, f = negation g → ∀ depth, simplifyDisjunctNeg tccsNone g depth ≠ [] →
        (SomeHolds v (simplifyDisjunctNeg tccsNone g depth) ↔ f.Holds v) := by
      rintro g rfl depth hne
      rw [simplifyDisjunctNeg.eq_def] at hne ⊢
      split at hne
      · rename_i f g
        have hf := size_negate_le tccsNone f
        have hg := size_negate_le tccsNone g
        rw [someHolds_append, hsub _ _ (by simp only [size]; omega),
          hsub _ _ (by simp only [size]; omega), holds_negate, holds_negate]
        simp only [Holds]
        tauto
      · simp [Holds]
      · rename_i f
        rw [hsub _ _ (by simp only [size]; omega)]
        simp only [Holds, not_not]
      · rename_i f g
        have hf := size_negate_le tccsNone (makeImplication f g)
        have hg := size_negate_le tccsNone (makeImplication g f)
        have hf' := size_makeImplication_le f g
        have hg' := size_makeImplication_le g f
        rw [someHolds_append, hsub _ _ (by simp only [size]; omega),
          hsub _ _ (by simp only [size]; omega), holds_negate, holds_negate, holds_makeImplication,
          holds_makeImplication]
        simp only [Holds]
        tauto
      · exact absurd rfl hne
    rw [simplifyDisjunct]
    split
    · exact someHolds_singleton f
    · generalize depth.map (· - 1) = depth
      rw [simplifyDisjunct1.eq_def]
      split
      · rw [someHolds_append, hsub _ _ (by simp only [size]; omega),
          hsub _ _ (by simp only [size]; omega)]
        rfl
      · rename_i f g
        have hf := size_negate_le tccsNone f
        rw [someHolds_append, hsub _ _ (by simp only [size]; omega),
          hsub _ _ (by simp only [size]; omega), holds_negate]
        simp only [Holds]
        tauto
      · rw [someHolds_singleton, holds_negate]
        rfl
      · rename_i f
        split
        · exact someHolds_singleton _
        · rename_i hne
          exact hneg f rfl depth hne
      · exact someHolds_singleton _

end

end Formula

/-! ### Sequents -/

/-- The formulas of a sequent are a disjunction. -/
def SequentHolds (v : Valuation α τ D) (seq : List (SForm α τ)) : Prop :=
  ∃ x ∈ seq, x.formula.Holds v

/-- FALSE or NOT TRUE. -/
def trivialSform (x : SForm α τ) : Bool :=
  x.formula == .false || x.formula == .negation .true

def sformReduce (simplifier : SForm α τ → Signal × List (SForm α τ)) (sformnums : List Fnum) :
    List (SForm α τ) → ℤ → ℤ → Signal × List (SForm α τ)
  | [], _, _ => (.x, [])
  | x :: sformlist, pos, neg =>
    let (signal, result) := if inSformnums x pos neg sformnums then simplifier x else (.x, [x])
    if signal = .bang then (.bang, [])
    else
      let (rsignal, rresult) := sformReduce simplifier sformnums sformlist
        (if x.sign then pos + 1 else pos) (if x.sign then neg else neg - 1)
      (if signal = .x then rsignal else if rsignal = .bang then .bang else signal,
        result.filter (fun x => !trivialSform x) ++ rresult)

/-- The subgoal is absent when the goal is proved. -/
def sequentReduce (sequent : List (SForm α τ))
    (simplifier : SForm α τ → Signal × List (SForm α τ)) (sformnums : Fnums) :
    Signal × Option (List (SForm α τ)) :=
  match sformReduce simplifier (cleanupFnums sformnums) sequent 1 (-1) with
  | (.bang, _) => (.bang, none)
  | (.x, _) => (.x, some sequent)
  | (.query, result) => (.query, some result)

def simplifyDisjunctSform (tccsNone : Bool) (depth : Option ℤ) (sform : SForm α τ) :
    Signal × List (SForm α τ) :=
  match (Formula.simplifyDisjunct tccsNone sform.formula depth).map
      fun x => { sform with formula := x } with
  | [x] => if sform.formula = x.formula then (.x, [sform]) else (.query, [x])
  | newSforms => (.query, newSforms)

def appendFnums : Fnums → Fnums → Fnums
  | .cons a d, l => .cons a (appendFnums d l)
  | _, l => l

/-- The list that `flatten` makes of its argument. -/
def flattenFnums : Fnums → Fnums
  | .cons (.cons a d) rest => appendFnums (.cons a d) (flattenFnums rest)
  | .cons a rest => .cons a (flattenFnums rest)
  | _ => .nil

def flattenSelector : Fnums → Fnums
  | .nil => .atom (.sym "*")
  | .cons a d => flattenFnums (.cons a d)
  | sformnums => .cons sformnums .nil

def flatten (tccsNone : Bool) (sformnums : Fnums) (depth : Option ℤ) (currentGoal : List (SForm α τ)) :
    Signal × Option (List (SForm α τ)) :=
  sequentReduce currentGoal (simplifyDisjunctSform tccsNone depth) (flattenSelector sformnums)

/-! ### What flattening does to a sequent -/

/-- The formulas a formula gives way to. -/
def disjunctSforms (tccsNone : Bool) (depth : Option ℤ) (x : SForm α τ) : List (SForm α τ) :=
  (Formula.simplifyDisjunct tccsNone x.formula depth).map fun f => { x with formula := f }

/-- The selected formulas of a sequent give way to their disjuncts. -/
def expand (tccsNone : Bool) (depth : Option ℤ) (nums : List Fnum) (ps : List (Position α τ)) :
    List (SForm α τ) :=
  ps.flatMap fun p => if p.selected nums then disjunctSforms tccsNone depth p.sform else [p.sform]

section

variable {v : Valuation α τ D} {tccsNone : Bool} {depth : Option ℤ}

omit [DecidableEq α] [DecidableEq τ] in
theorem sequentHolds_append (l l' : List (SForm α τ)) :
    SequentHolds v (l ++ l') ↔ SequentHolds v l ∨ SequentHolds v l' := by
  simp only [SequentHolds, List.mem_append, or_and_right, exists_or]

theorem not_holds_of_trivialSform {x : SForm α τ} (h : trivialSform x = true) :
    ¬ x.formula.Holds v := by
  simp only [trivialSform, Bool.or_eq_true, beq_iff_eq] at h
  obtain h | h := h <;> simp [h, Formula.Holds]

theorem sequentHolds_filter (l : List (SForm α τ)) :
    SequentHolds v (l.filter fun x => !trivialSform x) ↔ SequentHolds v l := by
  constructor
  · rintro ⟨x, hx, h⟩
    exact ⟨x, List.mem_of_mem_filter hx, h⟩
  · rintro ⟨x, hx, h⟩
    refine ⟨x, List.mem_filter.2 ⟨hx, ?_⟩, h⟩
    cases ht : trivialSform x with
    | true => exact absurd h (not_holds_of_trivialSform ht)
    | false => rfl

theorem sequentHolds_disjunctSforms (x : SForm α τ) :
    SequentHolds v (disjunctSforms tccsNone depth x) ↔ x.formula.Holds v := by
  rw [← Formula.someHolds_simplifyDisjunct tccsNone x.formula depth]
  simp [SequentHolds, disjunctSforms, Formula.SomeHolds]

/-- The meaning does not depend on which formulas are selected. -/
theorem sequentHolds_expand (nums : List Fnum) (seq : List (SForm α τ)) (pos neg : ℤ) :
    SequentHolds v (expand tccsNone depth nums (positions seq pos neg)) ↔ SequentHolds v seq := by
  induction seq generalizing pos neg with
  | nil => rfl
  | cons x seq ih =>
    have hx : SequentHolds v (if Position.selected nums ⟨x, pos, neg⟩ then
        disjunctSforms tccsNone depth x else [x]) ↔ SequentHolds v [x] := by
      split
      · rw [sequentHolds_disjunctSforms]
        simp [SequentHolds]
      · rfl
    have hcons : x :: seq = [x] ++ seq := rfl
    rw [positions, expand, List.flatMap_cons, sequentHolds_append, hx, hcons, sequentHolds_append]
    exact or_congr_right (ih _ _)

/-- `X` leaves the formula, `?` gives its disjuncts. -/
theorem simplifyDisjunctSform_cases (x : SForm α τ) :
    (simplifyDisjunctSform tccsNone depth x = (.x, [x]) ∧ disjunctSforms tccsNone depth x = [x]) ∨
      simplifyDisjunctSform tccsNone depth x = (.query, disjunctSforms tccsNone depth x) := by
  unfold simplifyDisjunctSform disjunctSforms
  split
  · rename_i y hy
    rw [hy]
    split
    · rename_i hsame
      have hlabel : y.label = x.label := by
        have hmem : y ∈ (Formula.simplifyDisjunct tccsNone x.formula depth).map
            fun f => { x with formula := f } := by
          rw [hy]
          exact List.mem_singleton_self y
        obtain ⟨f, -, rfl⟩ := List.mem_map.1 hmem
        rfl
      have hxy : y = x := by
        cases x
        cases y
        cases hlabel
        cases hsame
        rfl
      exact .inl ⟨rfl, by rw [hxy]⟩
    · exact .inr rfl
  · exact .inr rfl

variable (tccsNone depth) in
/-- A recursion over the formulas either changes nothing or gives the disjuncts that are not
trivial. -/
theorem sformReduce_simplifyDisjunctSform (nums : List Fnum) (seq : List (SForm α τ)) (pos neg : ℤ) :
    let r := sformReduce (simplifyDisjunctSform tccsNone depth) nums seq pos neg
    r.2 = (expand tccsNone depth nums (positions seq pos neg)).filter (fun x => !trivialSform x) ∧
      (r.1 = .x ∧ expand tccsNone depth nums (positions seq pos neg) = seq ∨ r.1 = .query) := by
  induction seq generalizing pos neg with
  | nil => exact ⟨rfl, .inl ⟨rfl, rfl⟩⟩
  | cons x seq ih =>
    obtain ⟨hresult, hsignal⟩ := ih (if x.sign then pos + 1 else pos) (if x.sign then neg else neg - 1)
    have hexpand : expand tccsNone depth nums (positions (x :: seq) pos neg) =
        (if inSformnums x pos neg nums then disjunctSforms tccsNone depth x else [x]) ++
          expand tccsNone depth nums (positions seq (if x.sign then pos + 1 else pos)
            (if x.sign then neg else neg - 1)) := by
      rw [positions, expand, List.flatMap_cons]
      rfl
    have hstep : (if inSformnums x pos neg nums then simplifyDisjunctSform tccsNone depth x
          else (.x, [x])) = (Signal.x, [x]) ∧
          (if inSformnums x pos neg nums then disjunctSforms tccsNone depth x else [x]) = [x] ∨
        (if inSformnums x pos neg nums then simplifyDisjunctSform tccsNone depth x
          else (.x, [x])) = (Signal.query,
          if inSformnums x pos neg nums then disjunctSforms tccsNone depth x else [x]) := by
      split
      · exact simplifyDisjunctSform_cases x
      · exact .inl ⟨rfl, rfl⟩
    rw [sformReduce, hexpand, List.filter_append]
    obtain ⟨e, hsame⟩ | e := hstep
    · rw [e, hsame]
      simp only [reduceCtorEq, if_false, if_true, hresult, true_and]
      obtain ⟨hx, hseq⟩ | hquery := hsignal
      · exact .inl ⟨hx, by rw [hseq]; rfl⟩
      · exact .inr hquery
    · rw [e]
      simp only [reduceCtorEq, if_false, hresult, true_and]
      obtain ⟨hx, -⟩ | hquery := hsignal
      · simp [hx]
      · simp [hquery]

end

/-- What a rule may make of a sequent: the same, or the disjuncts that are not FALSE or NOT TRUE. -/
structure Flattens (tccsNone : Bool) (depth : Option ℤ) (nums : List Fnum) (seq : List (SForm α τ))
    (r : Signal × Option (List (SForm α τ))) : Prop where
  open_goal : r.1 ≠ .bang
  unchanged : r.1 = .x → r.2 = some seq
  changed : r.1 = .query → r.2 = some ((expand tccsNone depth nums (positions seq 1 (-1))).filter
    fun x => !trivialSform x)
  kept : ∀ result, r.2 = some result →
    (((positions seq 1 (-1)).filter fun p => !p.selected nums && !trivialSform p.sform).map
      Position.sform).Sublist result
  equivalent : ∀ {D : Type} (v : Valuation α τ D) result, r.2 = some result →
    (SequentHolds v result ↔ SequentHolds v seq)

theorem sublist_expand (tccsNone : Bool) (depth : Option ℤ) (nums : List Fnum)
    (ps : List (Position α τ)) :
    ((ps.filter fun p => !p.selected nums && !trivialSform p.sform).map Position.sform).Sublist
      ((expand tccsNone depth nums ps).filter fun x => !trivialSform x) := by
  induction ps with
  | nil => exact .slnil
  | cons p ps ih =>
    rw [expand, List.flatMap_cons, List.filter_append, List.filter_cons]
    cases p.selected nums with
    | true => exact ih.trans (List.sublist_append_right _ _)
    | false =>
      cases ht : trivialSform p.sform with
      | true => exact ih.trans (List.sublist_append_right _ _)
      | false =>
        have hhead : [p.sform].filter (fun x => !trivialSform x) = [p.sform] := by simp [ht]
        simp only [Bool.not_false, Bool.and_self, if_true, Bool.false_eq_true, if_false, hhead,
          List.map_cons]
        exact ih.cons_cons p.sform

theorem flattens_sequentReduce (tccsNone : Bool) (depth : Option ℤ) (sformnums : Fnums)
    (seq : List (SForm α τ)) : Flattens tccsNone depth (cleanupFnums sformnums) seq
      (sequentReduce seq (simplifyDisjunctSform tccsNone depth) sformnums) := by
  obtain ⟨hresult, hsignal⟩ := sformReduce_simplifyDisjunctSform tccsNone depth
    (cleanupFnums sformnums) seq 1 (-1)
  have hcases : sequentReduce seq (simplifyDisjunctSform tccsNone depth) sformnums = (.x, some seq) ∨
      sequentReduce seq (simplifyDisjunctSform tccsNone depth) sformnums =
        (.query, some ((expand tccsNone depth (cleanupFnums sformnums) (positions seq 1 (-1))).filter
          fun x => !trivialSform x)) := by
    unfold sequentReduce
    split
    · rename_i h
      rw [h] at hsignal
      simp at hsignal
    · exact .inl rfl
    · rename_i h
      rw [h] at hresult
      exact .inr (by rw [← hresult])
  obtain e | e := hcases
  · rw [e]
    refine ⟨Signal.noConfusion, fun _ => rfl, Signal.noConfusion, fun result h => ?_,
      fun v result h => ?_⟩
    · cases h
      have hsub := (List.filter_sublist (p := fun p =>
        !p.selected (cleanupFnums sformnums) && !trivialSform p.sform)
        (l := positions seq 1 (-1))).map Position.sform
      rwa [map_sform_positions] at hsub
    · cases h
      rfl
  · rw [e]
    refine ⟨Signal.noConfusion, Signal.noConfusion, fun _ => rfl, fun result h => ?_,
      fun v result h => ?_⟩
    · cases h
      exact sublist_expand tccsNone depth _ _
    · cases h
      rw [sequentHolds_filter, sequentHolds_expand]

/-- Flattening keeps the meaning of the sequent, the formulas that are not selected and not trivial,
and their order. -/
theorem flatten_preserves (tccsNone : Bool) (depth : Option ℤ) (sformnums : Fnums)
    (seq : List (SForm α τ)) :
    Flattens tccsNone depth (cleanupFnums sformnums) seq
      (sequentReduce seq (simplifyDisjunctSform tccsNone depth) sformnums) ∧
    Flattens tccsNone depth (cleanupFnums (flattenSelector sformnums)) seq
      (flatten tccsNone sformnums depth seq) :=
  ⟨flattens_sequentReduce tccsNone depth sformnums seq,
    flattens_sequentReduce tccsNone depth (flattenSelector sformnums) seq⟩

/-- FALSE, A OR B flattened at 2: the FALSE goes away though it is not selected. -/
theorem not_unselected_kept : ¬ ∀ (sformnums : Fnums) (seq result : List (SForm ℕ ℕ)),
    (flatten true sformnums none seq).2 = some result →
      (deleteSeq seq (flattenSelector sformnums)).Sublist result := by
  intro h
  have hsub := h (.cons (.atom (.num 2)) .nil)
    [⟨.false, []⟩, ⟨.disjunction (.atom 0) (.atom 1), []⟩] [⟨.atom 0, []⟩, ⟨.atom 1, []⟩]
    (by decide +kernel)
  revert hsub
  decide +kernel

end PVS.Prover
