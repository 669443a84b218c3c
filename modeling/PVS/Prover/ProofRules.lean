import PVS.Prover.ProofDriver

/-! Every rule keeps the proof tree. -/

namespace PVS.Prover

variable {σ φ : Type} {d : Driver σ φ} {k : Calculus σ} {t : ProofTree σ φ} {ps n : ℕ}

/-! ### Subgoals -/

section Subgoals

variable {strategy : Option (Strategy φ)} {goals : List (Kind × σ)}

theorem Kept.of_new {k : Calculus σ} {next : ℕ} {node : ℕ → Proofstate σ φ} {goal : σ} {kind : Kind}
    (hlt : ps < n) :
    Kept d k next node n ⟨goal, kind, some ps, strategy, .nil, [], [], [], none, .none⟩ where
  parent_lt := by simpa using hlt
  root := by simp
  listed := by simp
  unlisted _ := rfl
  made := by simp
  yields := by simp
  strat := by simp
  notPropax := by simp
  closed := by simp
  fresh _ := .inl rfl
  query := by simp
  bang := by simp
  star := by simp
  remaining := by simp
  pending := by simp
  done := by simp

/-- A proof state is reduced to new ones. -/
theorem Invariant.reduce {t' : ProofTree σ φ} (strategy strategy' : Option (Strategy φ))
    (h : Invariant d k t ps)
    (happ : (t.node ps).application = .none) (hpropax : d.propax (t.node ps).currentGoal = false)
    (hyields : Step.Yields d k (t.node ps).currentGoal (goals.map fun g => d.cleanGoal g.2))
    (hstrat : ∀ g ∈ goals, g.1 = .strat → goals.length = 1)
    (hnext : t'.next = t.next + goals.length)
    (hoff : ∀ n < t.next, n ≠ ps → t'.node n = t.node n)
    (hnew : ∀ i (hi : i < goals.length), t'.node (t.next + i) =
      ⟨d.cleanGoal goals[i].2, goals[i].1, some ps, strategy, .nil, [], [], [], none, .none⟩)
    (hself : t'.node ps = { t.node ps with
      status := .query, remaining := List.range' t.next goals.length, strategy := strategy'
      application := .reduced (List.range' t.next goals.length) }) : Invariant d k t' ps := by
  have hlisted := h.self.listed_eq_nil_of_none happ
  rw [Proofstate.listed, List.append_eq_nil_iff, List.append_eq_nil_iff, List.append_eq_nil_iff]
    at hlisted
  obtain ⟨hactive, -, hpend, hdone⟩ := hlisted
  have hsub : ∀ c ∈ List.range' t.next goals.length, ∃ i, ∃ hi : i < goals.length, c = t.next + i ∧
      t'.node c =
        ⟨d.cleanGoal goals[i].2, goals[i].1, some ps, strategy, .nil, [], [], [], none, .none⟩ := by
    intro c hc
    obtain ⟨i, hi, rfl⟩ := List.mem_range'.1 hc
    rw [Nat.one_mul]
    exact ⟨i, hi, rfl, hnew i hi⟩
  have hgoals : ((List.range' t.next goals.length).map fun c => (t'.node c).currentGoal) =
      goals.map fun g => d.cleanGoal g.2 := by
    apply List.ext_getElem
    · simp
    · intro i hi hi'
      rw [List.getElem_map, List.getElem_map, List.getElem_range', Nat.one_mul,
        hnew i (by simpa using hi)]
  have hpself : (t'.node ps).SameGoal (t.node ps) := by
    rw [hself]
    exact ⟨rfl, rfl, rfl⟩
  refine ⟨?_, hnext ▸ h.lt.trans_le (Nat.le_add_right _ _),
    h.path.of_eq_off h.lt h.kept hoff hpself.parent, ?_⟩
  · apply forall_kept_of_eq_off h.kept h.path (hnext ▸ Nat.le_add_right _ _) hoff hpself
    · rw [hself]
      exact {
        parent_lt := h.self.parent_lt
        root := h.self.root
        listed := by
          rintro cs ⟨rfl⟩
          refine ⟨.of_eq ?_, List.nodup_range' ..⟩
          rw [Proofstate.listed, hpend, hdone]
          change (t.node ps).active ++ _ = _
          rw [hactive]
          simp
        unlisted := fun hnot => absurd rfl (hnot _)
        made := by
          rintro cs ⟨rfl⟩ c hc
          obtain ⟨i, hi, rfl, hnode⟩ := hsub c hc
          rw [hnode, hnext]
          exact ⟨h.lt.trans_le (Nat.le_add_right _ _), Nat.add_lt_add_left hi _, rfl⟩
        yields := by
          rintro cs ⟨rfl⟩
          rw [hgoals]
          exact hyields
        strat := by
          rintro cs ⟨rfl⟩ c hc hkind
          obtain ⟨i, hi, rfl, hnode⟩ := hsub c hc
          rw [hnode] at hkind
          have hone := hstrat goals[i] (List.getElem_mem hi) hkind
          obtain rfl : i = 0 := by omega
          rw [hone]
          rfl
        notPropax := fun _ _ => hpropax
        closed := by simp
        fresh := by simp [Flag.isFresh]
        query := by simp
        bang := by simp
        star := by simp
        remaining := by
          intro c hc
          obtain ⟨i, hi, rfl, hnode⟩ := hsub c hc
          rw [hnode]
          rfl
        pending := by simp [hpend]
        done := by simp [hdone] }
    · intro n hn hge
      obtain ⟨i, rfl⟩ := Nat.exists_eq_add_of_le hge
      rw [hnew i (by omega)]
      exact Kept.of_new (h.lt.trans_le hge)
  · intro _ _
    rw [hself]
    exact hactive

theorem ProofTree.makeSubgoalProofstates_snd :
    (t.makeSubgoalProofstates d ps strategy goals).2 = List.range' t.next goals.length := rfl

theorem Invariant.subgoals {s : Proofstate σ φ → Option (Strategy φ)} (h : Invariant d k t ps)
    (happ : (t.node ps).application = .none) (hpropax : d.propax (t.node ps).currentGoal = false)
    (hyields : Step.Yields d k (t.node ps).currentGoal (goals.map fun g => d.cleanGoal g.2))
    (hstrat : ∀ g ∈ goals, g.1 = .strat → goals.length = 1) :
    Invariant d k ((t.makeSubgoalProofstates d ps strategy goals).1.modify ps fun p =>
      { p with
        status := .query, remaining := List.range' t.next goals.length, strategy := s p
        application := .reduced (List.range' t.next goals.length) }) ps := by
  apply h.reduce strategy (s (t.node ps)) happ hpropax hyields hstrat rfl
  · intro n hn hne
    rw [ProofTree.modify_node_of_ne _ hne]
    exact if_neg (not_le.2 hn)
  · intro i hi
    rw [ProofTree.modify_node_of_ne _ (h.lt.trans_le (Nat.le_add_right _ _)).ne']
    simp only [ProofTree.makeSubgoalProofstates, if_pos (Nat.le_add_right _ _),
      Nat.add_sub_cancel_left, List.getElem?_eq_getElem hi]
  · rw [ProofTree.modify_node_self]
    simp only [ProofTree.makeSubgoalProofstates, if_neg (not_le.2 h.lt)]

end Subgoals

/-! ### Undoing -/

theorem OnPath.parent {par : ℕ} (h : OnPath t ps) (hpar : (t.node ps).parent = some par) :
    OnPath t par := by
  cases h with
  | root hroot => rw [hroot] at hpar; cases hpar
  | child hparent _ _ _ hpath =>
    obtain rfl := Option.some.inj (hpar.symm.trans hparent)
    exact hpath

namespace ProofTree

theorem nonstratParent_path (hlt : ps < t.next) (hpath : OnPath t ps) :
    OnPath t (t.nonstratParent ps) ∧ t.nonstratParent ps < t.next := by
  fun_induction nonstratParent t ps with
  | case1 ps par hpar hkind hparlt ih => exact ih (hparlt.trans hlt) (hpath.parent hpar)
  | case2 => exact ⟨hpath, hlt⟩
  | case3 => exact ⟨hpath, hlt⟩

theorem findps_path {info : Info} {newps : ℕ} (hlt : ps < t.next) (hpath : OnPath t ps)
    (hnewps : t.findps info ps = some newps) : OnPath t newps ∧ newps < t.next := by
  fun_induction findps t info ps with
  | case1 | case3 | case6 =>
    cases hnewps
    exact ⟨hpath, hlt⟩
  | case4 ps _ par hpar _ _ hparlt ih => exact ih (hparlt.trans hlt) (hpath.parent hpar) hnewps
  | case7 ps _ par hpar _ _ _ hparlt ih => exact ih (hparlt.trans hlt) (hpath.parent hpar) hnewps
  | case13 ps _ par hpar _ _ hparlt ih => exact ih (hparlt.trans hlt) (hpath.parent hpar) hnewps
  | case9 | case11 =>
    cases hnewps
    exact nonstratParent_path hlt hpath
  | case2 | case5 | case8 | case10 | case12 | case14 => cases hnewps

end ProofTree

/-! ### Rules -/

/-- What is assumed of the answer of a rule. -/
def ProofTree.Response.Sound (k : Calculus σ) (goal : σ) : ProofTree.Response σ → Prop
  | .proved => k.closes goal
  | .subgoals goals tccs => k.reduces goal (goals ++ tccs)
  | _ => True

/-- A step other than a strategy that is applied as a rule. -/
def Step.appliesRule : Step φ → Bool
  | .rule _ | .strategy (.rule _) _ _ => true
  | _ => false

namespace Invariant

/-- A proof state to which no rule has been applied. -/
theorem modify_fresh {f : Proofstate σ φ → Proofstate σ φ} (h : Invariant d k t ps)
    (hsame : (f (t.node ps)).SameGoal (t.node ps)) (happ : (t.node ps).application = .none)
    (happ' : (f (t.node ps)).application = .none) (hlisted : (f (t.node ps)).listed = (t.node ps).listed)
    (hquery : (f (t.node ps)).status ≠ .query) (hbang : (f (t.node ps)).status ≠ .bang) :
    Invariant d k (t.modify ps f) ps := by
  have hnil := h.self.listed_eq_nil_of_none happ
  apply invariant_modify h.kept h.path h.lt hsame
  · exact h.self.of_none hsame happ' (hlisted.trans hnil) hquery hbang
  · intro _ _
    rw [hnil, Proofstate.listed, List.append_eq_nil_iff] at hlisted
    exact hlisted.1

/-- The strategy of a proof state to which no rule has been applied may change. -/
theorem setStrategy (strategy : Option (Strategy φ)) (h : Invariant d k t ps)
    (happ : (t.node ps).application = .none) (hfresh : (t.node ps).status.isFresh = true) :
    Invariant d k (t.setStrategy ps strategy) ps := by
  apply h.modify_fresh ⟨rfl, rfl, rfl⟩ happ happ rfl
  · intro hquery
    rw [hquery] at hfresh
    cases hfresh
  · intro hbang
    rw [hbang] at hfresh
    cases hfresh

/-- A proof state is closed. -/
theorem close (h : Invariant d k t ps) (happ : (t.node ps).application = .none)
    (hcloses : k.closes (t.node ps).currentGoal ∨ d.propax (t.node ps).currentGoal = true) :
    Invariant d k (t.modify ps fun p => { p with status := .bang, application := .closed }) ps := by
  have hlisted := h.self.listed_eq_nil_of_none happ
  have hactive := hlisted
  rw [Proofstate.listed, List.append_eq_nil_iff] at hactive
  apply invariant_modify h.kept h.path h.lt ⟨rfl, rfl, rfl⟩
  · exact { h.self with
      listed := by simp
      unlisted := fun _ => hlisted
      made := by simp
      yields := by simp
      strat := by simp
      notPropax := by simp
      closed := fun _ => ⟨rfl, hcloses⟩
      fresh := by simp [Flag.isFresh]
      query := by simp
      bang := fun _ => .inl rfl
      star := by simp }
  · exact fun _ _ => hactive.1

theorem record (undone : Option (ℕ × Proofstate σ φ × ℕ)) (h : Invariant d k t ps) :
    Invariant d k { t with undone := undone } ps where
  kept := h.kept
  lt := h.lt
  path := by
    apply h.path.congr
    · exact fun m par hm hle => (h.kept m (hle.trans_lt h.lt)).parent_lt par hm
    · exact fun _ _ => rfl
    · rfl
  active := h.active

theorem undoProof {info : ProofTree.Info} {sure : Bool} (h : Invariant d k t ps)
    (happ : (t.node ps).application = .none) (hfresh : (t.node ps).status.isFresh = true) :
    Invariant d k (t.undoProof d info sure ps).1 (t.undoProof d info sure ps).2 := by
  rw [ProofTree.undoProof]
  split
  · exact h.setStrategy _ happ hfresh
  case h_2 newps hnewps =>
    split_ifs
    · exact h.setStrategy _ happ hfresh
    · obtain ⟨hpath, hlt⟩ := ProofTree.findps_path h.lt h.path hnewps
      exact (h.clear hpath hlt rfl).record _

theorem applyRule {s f : Option φ} {response : ProofTree.Response σ} (h : Invariant d k t ps)
    (happ : (t.node ps).application = .none) (hfresh : (t.node ps).status.isFresh = true)
    (hpropax : d.propax (t.node ps).currentGoal = false)
    (hsound : response.Sound k (t.node ps).currentGoal)
    (hredo : response = .undoUndo → ∀ old newps, t.undone ≠ some (ps, old, newps)) :
    Invariant d k (t.applyRule d s f ps response).1 (t.applyRule d s f ps response).2 := by
  cases response with
  | proved => exact h.close happ (.inl hsound)
  | subgoals goals tccs =>
    have hgoals : (goals.map (Kind.plain, ·) ++ tccs.map (Kind.tcc, ·)).map
        (fun g => d.cleanGoal g.2) = (goals ++ tccs).map d.cleanGoal := by
      simp [Function.comp_def]
    simp only [ProofTree.applyRule, ProofTree.makeSubgoalProofstates_snd]
    apply h.subgoals happ hpropax
    · exact .inl ⟨goals ++ tccs, hsound, hgoals⟩
    · intro g hg hstrat
      rw [List.mem_append, List.mem_map, List.mem_map] at hg
      rcases hg with ⟨goal, -, rfl⟩ | ⟨goal, -, rfl⟩
      · cases hstrat
      · cases hstrat
  | falseTccs | unchanged =>
    simp only [ProofTree.applyRule]
    exact h.modify_fresh ⟨rfl, rfl, rfl⟩ happ happ rfl (by simp) (by simp)
  | failed | postponed =>
    simp only [ProofTree.applyRule]
    exact h.modify_fresh ⟨rfl, rfl, rfl⟩ happ happ rfl (by simp) (by simp)
  | undo info sure => exact h.undoProof happ hfresh
  | undoUndo =>
    simp only [ProofTree.applyRule, ProofTree.undoUndo]
    split
    case h_1 undone old newps hundone =>
      split_ifs with heq
      · exact absurd (heq ▸ hundone) (hredo rfl old newps)
      · exact h.setStrategy _ happ hfresh
    · exact h.setStrategy _ happ hfresh

theorem ruleApply {step : Step φ} {response : ProofTree.Response σ} (h : Invariant d k t ps)
    (happ : (t.node ps).application = .none) (hfresh : (t.node ps).status.isFresh = true)
    (hpropax : d.propax (t.node ps).currentGoal = false)
    (hsound : response.Sound k (t.node ps).currentGoal)
    (hredo : step.appliesRule = true → response = .undoUndo →
      ∀ old newps, t.undone ≠ some (ps, old, newps)) :
    Invariant d k (t.ruleApply d step response ps).1 (t.ruleApply d step response ps).2 := by
  have hbad : Invariant d k (t.modify ps fun p =>
      { p with status := .nil, strategy := failureStrategy p.strategy }) ps :=
    h.modify_fresh ⟨rfl, rfl, rfl⟩ happ happ rfl (by simp) (by simp)
  cases step with
  | rule input => exact h.applyRule happ hfresh hpropax hsound (hredo rfl)
  | bad => exact hbad
  | strategy topstep s f =>
    cases topstep with
    | rule input => exact h.applyRule happ hfresh hpropax hsound (hredo rfl)
    | bad => exact hbad
    | strategy topstep s' f' =>
      simp only [ProofTree.ruleApply, ProofTree.makeSubgoalProofstates_snd]
      apply h.subgoals happ hpropax
      · exact .inr rfl
      · simp

end Invariant

end PVS.Prover
