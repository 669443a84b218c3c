import PVS.Prover.ProofRules

/-! Runs of the driver. -/

namespace PVS.Prover

variable {σ φ : Type} {d : Driver σ φ} {k : Calculus σ} {t : ProofTree σ φ} {ps : ℕ}

/-! ### Steps -/

/-- What is assumed of an input. Without a strategy, a proof state is postponed. -/
structure Legal (k : Calculus σ) (t : ProofTree σ φ) (ps : ℕ) (input : ProofTree.Input σ φ) :
    Prop where
  sound : ∀ step response, input = some (step, response) → response.Sound k (t.node ps).currentGoal
  postpone : ∀ step response, input = some (step, response) → (t.node ps).strategy = none →
    (∃ name, step = .rule name) ∧ response = .postponed

/-- An `undo` that takes effect. -/
structure Undoes (d : Driver σ φ) (t : ProofTree σ φ) (ps : ℕ) (input : ProofTree.Input σ φ) :
    Prop where
  fresh : (t.node ps).status.isFresh = true
  input_eq : ∃ step info sure, input = some (step, .undo info sure)
  back : (t.proofstepper d ps input).2 ≠ ps

/-- An `(undo undo)` that takes effect. -/
structure Redoes (d : Driver σ φ) (t : ProofTree σ φ) (ps : ℕ) (input : ProofTree.Input σ φ) :
    Prop where
  fresh : (t.node ps).status.isFresh = true
  notPropax : d.propax (t.node ps).currentGoal = false
  input_eq : ∃ step, step.appliesRule = true ∧ input = some (step, .undoUndo)
  undone : ∃ old newps, t.undone = some (ps, old, newps)

theorem ProofTree.modify_modify (f g : Proofstate σ φ → Proofstate σ φ) :
    (t.modify ps f).modify ps g = t.modify ps fun p => g (f p) := by
  rw [modify, modify_node_self]
  simp only [modify, Function.update_idem]

theorem ProofTree.proofstepper_of_propax {input : ProofTree.Input σ φ}
    (hfresh : (t.node ps).status.isFresh = true) (hpropax : d.propax (t.node ps).currentGoal = true) :
    t.proofstepper d ps input =
      (t.modify ps fun p => { p with status := .bang, application := .closed }, ps) := by
  cases hstatus : (t.node ps).status
  case nil | zero => simp only [proofstepper, hstatus, hpropax, if_true]
  all_goals
    rw [hstatus] at hfresh
    cases hfresh

theorem ProofTree.proofstepper_of_none (hfresh : (t.node ps).status.isFresh = true)
    (hpropax : d.propax (t.node ps).currentGoal = false) :
    t.proofstepper d ps none =
      (t.modify (t.nonstratParent ps) fun p =>
        { p.clear with status := .nil, strategy := some (.form d.query) }, t.nonstratParent ps) := by
  cases hstatus : (t.node ps).status
  case nil | zero => simp [proofstepper, hstatus, hpropax]
  all_goals
    rw [hstatus] at hfresh
    cases hfresh

theorem ProofTree.proofstepper_of_fresh {step : Step φ} {response : ProofTree.Response σ}
    (hfresh : (t.node ps).status.isFresh = true) (hpropax : d.propax (t.node ps).currentGoal = false) :
    t.proofstepper d ps (some (step, response)) =
      (t.setStrategy ps (some (.step step))).ruleApply d step response ps := by
  cases hstatus : (t.node ps).status
  case nil | zero => simp [proofstepper, hstatus, hpropax]
  all_goals
    rw [hstatus] at hfresh
    cases hfresh

namespace Invariant

/-- No rule has been applied to a fresh proof state, except for the root when it is left with pending
subgoals and no strategy. -/
theorem application_of_fresh (h : Invariant d k t ps) (hfresh : (t.node ps).status.isFresh = true)
    (hpend : (t.node ps).strategy = none → (t.node ps).pending = []) :
    (t.node ps).application = .none := by
  rcases h.self.fresh hfresh with happ | ⟨-, hnone, hne⟩
  · exact happ
  · exact absurd (hpend hnone) hne

theorem trivial (h : Invariant d k t ps) (hfresh : (t.node ps).status.isFresh = true)
    (hpropax : d.propax (t.node ps).currentGoal = true) :
    Invariant d k (t.modify ps fun p => { p with status := .bang, application := .closed }) ps := by
  refine h.close ?_ (.inr hpropax)
  rcases h.self.fresh hfresh with happ | ⟨-, -, hne⟩
  · exact happ
  · obtain ⟨c, hc⟩ := List.exists_mem_of_ne_nil _ hne
    obtain ⟨cs, hcs, -⟩ := h.self.mem_of_listed (Proofstate.pending_subset_listed hc)
    rw [h.self.notPropax cs hcs] at hpropax
    cases hpropax

/-- The root is left to wait once more. -/
theorem wait {strategy : Option (Strategy φ)} (h : Invariant d k t ps)
    (hfresh : (t.node ps).status.isFresh = true) (hstrategy : subgoalStrategy strategy = none)
    (hne : (t.node ps).pending ≠ []) :
    Invariant d k (t.modify ps fun p => { p with strategy := strategy, status := .star }) ps := by
  have hactive : (t.node ps).active = [] := by
    apply h.active
    · intro hx
      rw [hx] at hfresh
      cases hfresh
    · intro hx
      rw [hx] at hfresh
      cases hfresh
  obtain ⟨c, hc⟩ := List.exists_mem_of_ne_nil _ hne
  obtain ⟨cs, hcs, -⟩ := h.self.mem_of_listed (Proofstate.pending_subset_listed hc)
  apply invariant_modify h.kept h.path h.lt ⟨rfl, rfl, rfl⟩
  · refine h.self.of_reduced ⟨rfl, rfl, rfl⟩ hcs hcs (.refl _) rfl ?_ ?_ ?_ ?_ ?_
    · simp
    · exact fun _ => ⟨hstrategy, hne⟩
    · exact h.self.remaining
    · exact h.self.pending
    · exact h.self.done
  · exact fun _ _ => hactive

theorem abort (h : Invariant d k t ps) :
    Invariant d k (t.modify (t.nonstratParent ps) fun p =>
      { p.clear with status := .nil, strategy := some (.form d.query) }) (t.nonstratParent ps) := by
  obtain ⟨hpath, hlt⟩ := ProofTree.nonstratParent_path h.lt h.path
  exact h.clear hpath hlt rfl

/-- A rule is applied to a fresh proof state. -/
theorem input {step : Step φ} {response : ProofTree.Response σ} (h : Invariant d k t ps)
    (hlegal : Legal k t ps (some (step, response))) (hfresh : (t.node ps).status.isFresh = true)
    (hpropax : d.propax (t.node ps).currentGoal = false)
    (hredo : ¬ Redoes d t ps (some (step, response))) :
    Invariant d k ((t.setStrategy ps (some (.step step))).ruleApply d step response ps).1
      ((t.setStrategy ps (some (.step step))).ruleApply d step response ps).2 := by
  by_cases hwait : (t.node ps).strategy = none ∧ (t.node ps).pending ≠ []
  · obtain ⟨⟨name, rfl⟩, rfl⟩ := hlegal.postpone step response rfl hwait.1
    simp only [ProofTree.ruleApply, ProofTree.applyRule, ProofTree.setStrategy,
      ProofTree.modify_modify]
    exact h.wait hfresh rfl hwait.2
  · have happ := h.application_of_fresh hfresh fun hnone => by_contra fun hne => hwait ⟨hnone, hne⟩
    have hset := h.setStrategy (some (.step step)) happ hfresh
    have hnode : (t.setStrategy ps (some (.step step))).node ps =
        { t.node ps with strategy := some (.step step) } := t.modify_node_self ps _
    apply hset.ruleApply
    · rw [hnode]
      exact happ
    · rw [hnode]
      exact hfresh
    · rw [hnode]
      exact hpropax
    · rw [hnode]
      exact hlegal.sound step response rfl
    · rintro happlies rfl old newps hundone
      exact hredo ⟨hfresh, hpropax, ⟨step, happlies, rfl⟩, old, newps, hundone⟩

/-- Every step keeps the proof tree. -/
theorem proofstepper {input : ProofTree.Input σ φ} (h : Invariant d k t ps)
    (hlegal : Legal k t ps input) (hredo : ¬ Redoes d t ps input) :
    Invariant d k (t.proofstepper d ps input).1 (t.proofstepper d ps input).2 := by
  have hstep : (t.node ps).status.isFresh = true →
      Invariant d k (t.proofstepper d ps input).1 (t.proofstepper d ps input).2 := by
    intro hfresh
    cases hpropax : d.propax (t.node ps).currentGoal with
    | true =>
      rw [ProofTree.proofstepper_of_propax hfresh hpropax]
      exact h.trivial hfresh hpropax
    | false =>
      cases input with
      | none =>
        rw [ProofTree.proofstepper_of_none hfresh hpropax]
        exact h.abort
      | some answer =>
        rw [ProofTree.proofstepper_of_fresh hfresh hpropax]
        exact h.input hlegal hfresh hpropax hredo
  cases hstatus : (t.node ps).status
  case nil | zero => exact hstep (by rw [hstatus]; rfl)
  case query =>
    simp only [ProofTree.proofstepper, hstatus]
    split
    case h_1 hrem =>
      split_ifs with hpend
      · exact h.success hstatus hrem hpend
      · exact h.postProcessingStep hstatus hrem hpend
    case h_2 newps rest hrem => exact h.pop hstatus hrem
  case bang | star | x | xx =>
    simp only [ProofTree.proofstepper, hstatus]
    apply h.nextProofstate
    · rw [hstatus]
      rfl
    · simp [hstatus]

end Invariant

/-! ### Undoing an undo -/

namespace ProofTree

theorem ruleApply_of_appliesRule {step : Step φ} (ps : ℕ) (h : step.appliesRule = true)
    (response : Response σ) :
    ∃ s f, t.ruleApply d step response ps = t.applyRule d s f ps response := by
  cases step with
  | rule => exact ⟨none, none, rfl⟩
  | bad => cases h
  | strategy topstep s f =>
    cases topstep with
    | rule => exact ⟨s, f, rfl⟩
    | strategy | bad => cases h

theorem ruleApply_snd_of_not {step : Step φ} (h : step.appliesRule = false)
    (response : Response σ) : (t.ruleApply d step response ps).2 = ps := by
  cases step with
  | rule => cases h
  | bad => rfl
  | strategy topstep s f =>
    cases topstep with
    | rule => cases h
    | strategy | bad => rfl

/-- What was undone is back, but for the strategy. -/
theorem undoUndo_undoProof {info : Info} {sure : Bool} (strategy : Option (Strategy φ))
    (hne : (t.undoProof d info sure ps).2 ≠ ps) :
    ((t.undoProof d info sure ps).1.setStrategy (t.undoProof d info sure ps).2 strategy).undoUndo d
      (t.undoProof d info sure ps).2 =
    ({ t.setStrategy ps (some (.form d.query)) with
        undone := (t.undoProof d info sure ps).1.undone }, ps) := by
  rw [undoProof] at hne ⊢
  split at hne
  · exact absurd rfl hne
  case h_2 newps hnewps =>
    split_ifs at hne with hsame
    · exact absurd rfl hne
    · simp only [if_neg hsame]
      have hback : ∀ n, (((t.modify newps fun p => { p.clear with
          status := .nil, strategy := some (.form d.query) }).setStrategy newps strategy).modify newps
            fun p => { t.node newps with
              currentGoal := p.currentGoal, kind := p.kind, parent := p.parent }).node n =
          t.node n := by
        intro n
        by_cases hn : n = newps
        · subst hn
          simp only [setStrategy, modify_node_self, Proofstate.clear]
        · rw [modify_node_of_ne _ hn, setStrategy, modify_node_of_ne _ hn, modify_node_of_ne _ hn]
      have htree : ({ t.modify newps fun p => { p.clear with
          status := .nil, strategy := some (.form d.query) } with
            undone := some (newps, t.node newps, ps) }.setStrategy newps strategy).modify newps
            (fun p => { t.node newps with
              currentGoal := p.currentGoal, kind := p.kind, parent := p.parent }) =
          { t with undone := some (newps, t.node newps, ps) } := by
        rw [ProofTree.mk.injEq]
        exact ⟨funext hback, rfl, rfl⟩
      simp only [undoUndo, setStrategy, modify_undone, if_true] at htree ⊢
      rw [htree]
      rfl

end ProofTree

/-- An undo and what undoes it keep the proof tree together. -/
theorem Invariant.redo {input redo : ProofTree.Input σ φ} (h : Invariant d k t ps)
    (hlegal : Legal k t ps input) (hundo : Undoes d t ps input)
    (hredo : Redoes d (t.proofstepper d ps input).1 (t.proofstepper d ps input).2 redo) :
    Invariant d k
      ((t.proofstepper d ps input).1.proofstepper d (t.proofstepper d ps input).2 redo).1
      ((t.proofstepper d ps input).1.proofstepper d (t.proofstepper d ps input).2 redo).2 := by
  obtain ⟨hfresh, ⟨step, info, sure, rfl⟩, hback⟩ := hundo
  obtain ⟨hfresh', hpropax', ⟨step', happlies', rfl⟩, -⟩ := hredo
  have hpropax : d.propax (t.node ps).currentGoal = false := by
    by_contra hne
    rw [ProofTree.proofstepper_of_propax hfresh ((Bool.not_eq_false _).mp hne)] at hback
    exact hback rfl
  have happ : (t.node ps).application = .none := by
    refine h.application_of_fresh hfresh fun hnone => ?_
    cases (hlegal.postpone step _ rfl hnone).2
  have hset : Invariant d k (t.setStrategy ps (some (.step step))) ps := h.setStrategy _ happ hfresh
  have hset' : Invariant d k ((t.setStrategy ps (some (.step step))).setStrategy ps
      (some (.form d.query))) ps := by
    rw [ProofTree.setStrategy, ProofTree.setStrategy, ProofTree.modify_modify]
    exact h.setStrategy _ happ hfresh
  have happlies : step.appliesRule = true := by
    by_contra hne
    rw [ProofTree.proofstepper_of_fresh hfresh hpropax] at hback
    exact hback (ProofTree.ruleApply_snd_of_not ((Bool.not_eq_true _).mp hne) _)
  obtain ⟨s, f, happly⟩ := ProofTree.ruleApply_of_appliesRule (d := d)
    (t := t.setStrategy ps (some (.step step))) ps happlies (.undo info sure)
  have hundo : t.proofstepper d ps (some (step, .undo info sure)) =
      (t.setStrategy ps (some (.step step))).undoProof d info sure ps := by
    rw [ProofTree.proofstepper_of_fresh hfresh hpropax, happly]
    rfl
  rw [hundo] at hfresh' hpropax' hback ⊢
  rw [ProofTree.proofstepper_of_fresh hfresh' hpropax']
  obtain ⟨s', f', happly'⟩ := ProofTree.ruleApply_of_appliesRule (d := d) _ happlies' .undoUndo
  rw [happly']
  simp only [ProofTree.applyRule]
  rw [ProofTree.undoUndo_undoProof _ hback]
  exact hset'.record _

/-! ### Runs -/

/-- The root, and nothing else. -/
def ProofTree.initial (goal : σ) (strategy : Option (Strategy φ)) : ProofTree σ φ where
  node _ := { currentGoal := goal, kind := .top, parent := none, strategy := strategy }
  next := 1
  undone := none

theorem Undoes.not_redoes {input : ProofTree.Input σ φ} (h : Undoes d t ps input) :
    ¬ Redoes d t ps input := by
  rintro ⟨-, -, ⟨step, -, rfl⟩, -⟩
  obtain ⟨_, _, _, heq⟩ := h.input_eq
  cases heq

/-- The states of the driver. An undo is undone before anything else is done or not at all. -/
inductive Run (d : Driver σ φ) (k : Calculus σ) (goal : σ) (strategy : Option (Strategy φ)) :
    ProofTree σ φ → ℕ → Prop
  | initial : Run d k goal strategy (.initial goal strategy) 0
  | step {t : ProofTree σ φ} {ps : ℕ} {input : ProofTree.Input σ φ} : Run d k goal strategy t ps →
      Legal k t ps input → ¬ Redoes d t ps input →
      Run d k goal strategy (t.proofstepper d ps input).1 (t.proofstepper d ps input).2
  | redo {t : ProofTree σ φ} {ps : ℕ} {input redo : ProofTree.Input σ φ} : Run d k goal strategy t ps →
      Legal k t ps input → Undoes d t ps input →
      Redoes d (t.proofstepper d ps input).1 (t.proofstepper d ps input).2 redo →
      Run d k goal strategy
        ((t.proofstepper d ps input).1.proofstepper d (t.proofstepper d ps input).2 redo).1
        ((t.proofstepper d ps input).1.proofstepper d (t.proofstepper d ps input).2 redo).2

variable {goal : σ} {strategy : Option (Strategy φ)}

theorem Invariant.initial : Invariant d k (.initial goal strategy) 0 where
  kept n hn := by
    obtain rfl : n = 0 := Nat.lt_one_iff.1 hn
    exact {
      parent_lt := by simp [ProofTree.initial]
      root := fun _ => rfl
      listed := by simp [ProofTree.initial]
      unlisted := fun _ => rfl
      made := by simp [ProofTree.initial]
      yields := by simp [ProofTree.initial]
      strat := by simp [ProofTree.initial]
      notPropax := by simp [ProofTree.initial]
      closed := by simp [ProofTree.initial]
      fresh := fun _ => .inl rfl
      query := by simp [ProofTree.initial]
      bang := by simp [ProofTree.initial]
      star := by simp [ProofTree.initial]
      remaining := by simp [ProofTree.initial]
      pending := by simp [ProofTree.initial]
      done := by simp [ProofTree.initial] }
  lt := Nat.one_pos
  path := .root rfl
  active _ _ := rfl

theorem Run.invariant (h : Run d k goal strategy t ps) : Invariant d k t ps := by
  induction h with
  | initial => exact .initial
  | step _ hlegal hredo ih => exact ih.proofstepper hlegal hredo
  | redo _ hlegal hundo hredo ih => exact ih.redo hlegal hundo hredo

/-! ### Goals -/

namespace ProofTree

section Goal

variable {m : ℕ}

theorem modify_currentGoal {f : Proofstate σ φ → Proofstate σ φ}
    (hf : ∀ p, (f p).currentGoal = p.currentGoal) :
    ((t.modify ps f).node m).currentGoal = (t.node m).currentGoal := by
  by_cases hm : m = ps
  · rw [hm, modify_node_self, hf]
  · rw [modify_node_of_ne _ hm]

theorem makeSubgoalProofstates_currentGoal {goals : List (Kind × σ)} (hm : m < t.next) :
    ((t.makeSubgoalProofstates d ps strategy goals).1.node m).currentGoal =
      (t.node m).currentGoal := by
  simp only [makeSubgoalProofstates, if_neg (not_le.2 hm)]

theorem transferSubgoalStrat_currentGoal (t : ProofTree σ φ) (cs accum : List ℕ) :
    ((transferSubgoalStrat strategy t cs accum).1.node m).currentGoal = (t.node m).currentGoal := by
  induction cs generalizing t accum with
  | nil => rfl
  | cons c cs ih =>
    rw [transferSubgoalStrat, ih]
    apply modify_currentGoal
    intro p
    split_ifs
    · rfl
    · rfl

theorem nextProofstate_currentGoal :
    ((t.nextProofstate ps).1.node m).currentGoal = (t.node m).currentGoal := by
  simp only [nextProofstate]
  split
  · split_ifs
    · dsimp only
      exact modify_currentGoal fun _ => rfl
    · rfl
  · split
    all_goals try split_ifs
    all_goals dsimp only
    all_goals exact modify_currentGoal fun _ => rfl

theorem setStrategy_currentGoal {strategy : Option (Strategy φ)} :
    ((t.setStrategy ps strategy).node m).currentGoal = (t.node m).currentGoal :=
  modify_currentGoal fun _ => rfl

theorem undoProof_currentGoal {info : Info} {sure : Bool} :
    ((t.undoProof d info sure ps).1.node m).currentGoal = (t.node m).currentGoal := by
  rw [undoProof]
  split
  · exact setStrategy_currentGoal
  · split_ifs
    · exact setStrategy_currentGoal
    · dsimp only
      exact modify_currentGoal fun _ => rfl

theorem undoUndo_currentGoal :
    ((t.undoUndo d ps).1.node m).currentGoal = (t.node m).currentGoal := by
  rw [undoUndo]
  split
  · split_ifs
    · exact setStrategy_currentGoal.trans (modify_currentGoal fun _ => rfl)
    · exact setStrategy_currentGoal
  · exact setStrategy_currentGoal

theorem applyRule_currentGoal {s f : Option φ} {response : Response σ} (hm : m < t.next) :
    ((t.applyRule d s f ps response).1.node m).currentGoal = (t.node m).currentGoal := by
  cases response with
  | undo => exact undoProof_currentGoal
  | undoUndo => exact undoUndo_currentGoal
  | subgoals =>
    simp only [applyRule]
    refine (modify_currentGoal ?_).trans (makeSubgoalProofstates_currentGoal hm)
    exact fun _ => rfl
  | proved | falseTccs | unchanged | failed | postponed =>
    simp only [applyRule]
    exact modify_currentGoal fun _ => rfl

theorem ruleApply_currentGoal {step : Step φ} {response : Response σ} (hm : m < t.next) :
    ((t.ruleApply d step response ps).1.node m).currentGoal = (t.node m).currentGoal := by
  cases step with
  | rule => exact applyRule_currentGoal hm
  | bad =>
    simp only [ruleApply]
    exact modify_currentGoal fun _ => rfl
  | strategy topstep =>
    cases topstep with
    | rule => exact applyRule_currentGoal hm
    | bad =>
      simp only [ruleApply]
      exact modify_currentGoal fun _ => rfl
    | strategy =>
      simp only [ruleApply]
      refine (modify_currentGoal ?_).trans (makeSubgoalProofstates_currentGoal hm)
      exact fun _ => rfl

/-- No goal ever changes. -/
theorem proofstepper_currentGoal {input : Input σ φ} (hm : m < t.next) :
    ((t.proofstepper d ps input).1.node m).currentGoal = (t.node m).currentGoal := by
  have hfresh : (t.node ps).status.isFresh = true →
      ((t.proofstepper d ps input).1.node m).currentGoal = (t.node m).currentGoal := by
    intro hfresh
    cases hpropax : d.propax (t.node ps).currentGoal with
    | true =>
      rw [proofstepper_of_propax hfresh hpropax]
      dsimp only
      exact modify_currentGoal fun _ => rfl
    | false =>
      cases input with
      | none =>
        rw [proofstepper_of_none hfresh hpropax]
        dsimp only
        exact modify_currentGoal fun _ => rfl
      | some answer =>
        rw [proofstepper_of_fresh hfresh hpropax]
        exact (ruleApply_currentGoal (t := t.setStrategy ps _) hm).trans setStrategy_currentGoal
  cases hstatus : (t.node ps).status
  case nil | zero => exact hfresh (by rw [hstatus]; rfl)
  case query =>
    simp only [proofstepper, hstatus]
    split
    · split_ifs
      · simp only [successStep]
        exact modify_currentGoal fun _ => rfl
      · simp only [postProcessingStep]
        split_ifs
        · exact nextProofstate_currentGoal.trans (modify_currentGoal fun _ => rfl)
        · dsimp only
          refine (modify_currentGoal ?_).trans (transferSubgoalStrat_currentGoal ..)
          exact fun _ => rfl
    · dsimp only
      exact modify_currentGoal fun _ => rfl
  case bang | star | x | xx =>
    simp only [proofstepper, hstatus]
    exact nextProofstate_currentGoal

end Goal

end ProofTree

theorem Run.currentGoal (h : Run d k goal strategy t ps) :
    0 < t.next ∧ (t.node 0).currentGoal = goal := by
  induction h with
  | initial => exact ⟨Nat.one_pos, rfl⟩
  | step hrun hlegal hredo ih =>
    exact ⟨(Nat.zero_le _).trans_lt (hrun.step hlegal hredo).invariant.lt,
      (ProofTree.proofstepper_currentGoal ih.1).trans ih.2⟩
  | @redo t ps input redo hrun hlegal hundo hredo ih =>
    have hnext : 0 < (t.proofstepper d ps input).1.next :=
      (Nat.zero_le _).trans_lt (hrun.step hlegal hundo.not_redoes).invariant.lt
    exact ⟨(Nat.zero_le _).trans_lt (hrun.redo hlegal hundo hredo).invariant.lt,
      (ProofTree.proofstepper_currentGoal hnext).trans
        ((ProofTree.proofstepper_currentGoal ih.1).trans ih.2)⟩

/-! ### Proofs -/

/-- The sequents that the rules prove. Goals are cleaned before a rule sees them. -/
inductive Derivation (d : Driver σ φ) (k : Calculus σ) : σ → Prop
  | propax {s : σ} : d.propax s = true → Derivation d k s
  | closed {s : σ} : k.closes s → Derivation d k s
  | reduced {s : σ} {goals : List σ} : k.reduces s goals →
      (∀ g ∈ goals, Derivation d k (d.cleanGoal g)) → Derivation d k s
  | strategy {s : σ} : Derivation d k (d.cleanGoal s) → Derivation d k s

/-- What is finished is proved. -/
theorem Invariant.derivation {n : ℕ} (h : Invariant d k t ps) (hn : n < t.next)
    (hbang : (t.node n).status = .bang) : Derivation d k (t.node n).currentGoal := by
  have hkept := h.kept n hn
  rcases hkept.bang hbang with hclosed | ⟨cs, hcs, hall⟩
  · rcases (hkept.closed hclosed).2 with hcloses | hpropax
    · exact .closed hcloses
    · exact .propax hpropax
  · have hsub : ∀ c ∈ cs, Derivation d k (t.node c).currentGoal := by
      intro c hc
      obtain ⟨hgt, hlt, -⟩ := hkept.made cs hcs c hc
      exact h.derivation hlt (hall c hc)
    rcases hkept.yields cs hcs with ⟨goals, hreduces, hgoals⟩ | hgoals
    · refine .reduced hreduces fun g hg => ?_
      obtain ⟨c, hc, heq⟩ := List.mem_map.1 (hgoals ▸ List.mem_map_of_mem hg)
      exact heq ▸ hsub c hc
    · obtain ⟨c, hc, heq⟩ := List.mem_map.1
        (hgoals ▸ List.mem_singleton_self (d.cleanGoal (t.node n).currentGoal))
      exact .strategy (heq ▸ hsub c hc)
termination_by t.next - n

/-- Every subgoal is current, remaining, pending or done, and only one of these; what is finished was
closed or all its subgoals are finished; and the root is finished only if it is proved. -/
theorem Run.finished (h : Run d k goal strategy t ps) :
    (∀ n < t.next, ∀ cs, (t.node n).application = .reduced cs → ∀ c ∈ cs,
      (t.node n).active.count c + (t.node n).remaining.count c + (t.node n).pending.count c +
        (t.node n).done.count c = 1) ∧
    (∀ n < t.next, (t.node n).status = .bang →
      (t.node n).application = .closed ∧
        (k.closes (t.node n).currentGoal ∨ d.propax (t.node n).currentGoal = true) ∨
      ∃ cs, (t.node n).application = .reduced cs ∧
        Step.Yields d k (t.node n).currentGoal (cs.map fun c => (t.node c).currentGoal) ∧
        ∀ c ∈ cs, (t.node c).status = .bang) ∧
    ((t.node 0).status = .bang → Derivation d k goal) := by
  have hinv := h.invariant
  refine ⟨?_, ?_, ?_⟩
  · intro n hn cs hcs c hc
    obtain ⟨hperm, hnodup⟩ := (hinv.kept n hn).listed cs hcs
    have hcount := (hperm.count_eq c).trans (List.count_eq_one_of_mem hnodup hc)
    rw [Proofstate.listed, List.count_append, List.count_append, List.count_append] at hcount
    omega
  · intro n hn hbang
    have hkept := hinv.kept n hn
    rcases hkept.bang hbang with hclosed | ⟨cs, hcs, hall⟩
    · exact .inl ⟨hclosed, (hkept.closed hclosed).2⟩
    · exact .inr ⟨cs, hcs, hkept.yields cs hcs, hall⟩
  · intro hbang
    obtain ⟨hlt, hgoal⟩ := h.currentGoal
    exact hgoal ▸ hinv.derivation hlt hbang

/-! A sequent is proved in two steps. -/

section Example

abbrev countdown : Calculus ℕ where
  closes s := s = 0
  reduces s goals := s = 1 ∧ goals = [0]

abbrev prover : Driver ℕ Unit where
  propax _ := false
  cleanGoal := id
  query := ()

theorem Legal.none : Legal k t ps Option.none where
  sound _ _ h := nomatch h
  postpone _ _ h := nomatch h

theorem Legal.some {step : Step φ} {response : ProofTree.Response σ}
    (hsound : response.Sound k (t.node ps).currentGoal)
    (hstrategy : (t.node ps).strategy ≠ Option.none) : Legal k t ps (Option.some (step, response)) where
  sound := by
    rintro _ _ ⟨rfl, rfl⟩
    exact hsound
  postpone _ _ _ hnone := absurd hnone hstrategy

theorem not_redoes_none : ¬ Redoes d t ps none := by
  rintro ⟨-, -, ⟨_, -, h⟩, -⟩
  cases h

theorem not_redoes {step : Step φ} {response : ProofTree.Response σ} (h : response ≠ .undoUndo) :
    ¬ Redoes d t ps (some (step, response)) := by
  rintro ⟨-, -, ⟨_, -, heq⟩, -⟩
  cases heq
  exact h rfl

abbrev ProofTree.after (d : Driver σ φ) (inputs : List (ProofTree.Input σ φ))
    (s : ProofTree σ φ × ℕ) : ProofTree σ φ × ℕ :=
  inputs.foldl (fun s input => s.1.proofstepper d s.2 input) s

/-- The sequent is reduced, and its subgoal is closed and recorded. -/
abbrev subgoalDone : ProofTree ℕ Unit × ℕ :=
  ProofTree.after prover
    [some (.strategy (.rule ()) (some ()) none, .subgoals [0] []), none, some (.rule (), .proved), none]
    (.initial 1 (some (.form ())), 0)

theorem run_subgoalDone :
    Run prover countdown 1 (some (.form ())) subgoalDone.1 subgoalDone.2 := by
  have hinitial : Run prover countdown 1 (some (.form ())) (.initial 1 (some (.form ()))) 0 := .initial
  have hreduce : Legal countdown (.initial 1 (some (.form ()))) 0
      (some (.strategy (.rule ()) (some ()) none, .subgoals [0] [])) :=
    .some ⟨rfl, rfl⟩ (Option.some_ne_none _)
  have htaken := (hinitial.step hreduce (not_redoes nofun)).step .none not_redoes_none
  refine (htaken.step (?_ : Legal countdown _ _ (some (.rule (), .proved))) (not_redoes nofun)).step
    .none not_redoes_none
  exact .some rfl (Option.some_ne_none _)

theorem finished_countdown : Derivation prover countdown 1 := by
  have hrun := run_subgoalDone.step .none not_redoes_none
  exact (Run.finished hrun).2.2 rfl

/-- The current subgoal is not reset when it is done. -/
theorem not_count_eq_one : ¬ ∀ (goal : ℕ) (strategy : Option (Strategy Unit)) (t : ProofTree ℕ Unit) (ps : ℕ),
    Run prover countdown goal strategy t ps →
    ∀ n < t.next, ∀ cs, (t.node n).application = .reduced cs → ∀ c ∈ cs,
      (t.node n).current.toList.count c + (t.node n).remaining.count c + (t.node n).pending.count c +
        (t.node n).done.count c = 1 := by
  intro h
  have hcount := h 1 _ subgoalDone.1 subgoalDone.2 run_subgoalDone 0 (by decide) [1] rfl 1 (by simp)
  revert hcount
  decide

end Example

end PVS.Prover
