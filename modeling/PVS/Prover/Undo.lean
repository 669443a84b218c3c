import PVS.Prover.ProofRun

/-! `(undo …)` and `(undo undo)` on all of the proof state that they set. -/

namespace PVS.Prover

/-- The slots of a proof state that a proof tree leaves out. -/
structure Slots (φ κ δ : Type) where
  justification : Option κ
  currentRule : Option φ
  currentXrule : Option φ
  parsedInput : Option φ
  printout : Option φ
  currentInput : Option φ
  comment : Option String
  dependentDecls : List δ

/-- `undoneSlots` are those of the copy in `*record-undone-proofstate*`. -/
structure SlotTree (σ φ κ δ : Type) where
  tree : ProofTree σ φ
  slots : ℕ → Slots φ κ δ
  undoneSlots : Option (Slots φ κ δ)

namespace SlotTree

variable {σ φ κ δ : Type} (d : Driver σ φ)

/-- What the driver sets before it applies a rule typed by the user. -/
def answer (r : SlotTree σ φ κ δ) (ps : ℕ) (input : φ) (step : Step φ) : SlotTree σ φ κ δ :=
  { r with
    tree := r.tree.setStrategy ps (some (.step step))
    slots := Function.update r.slots ps { r.slots ps with currentInput := some input } }

/-- `collect` is `collect-justification`. -/
def undoProof (collect : SlotTree σ φ κ δ → ℕ → κ) (r : SlotTree σ φ κ δ) (info : ProofTree.Info)
    (sure : Bool) (ps : ℕ) : SlotTree σ φ κ δ × ℕ :=
  let tree := (r.tree.undoProof d info sure ps).1
  let newps := (r.tree.undoProof d info sure ps).2
  if newps = ps then ({ r with tree := tree }, ps)
  else
    ({ tree := tree
       slots := Function.update r.slots newps
        { r.slots newps with
          justification := some (collect r newps)
          dependentDecls := []
          currentRule := none
          currentXrule := none
          printout := none }
       undoneSlots := some (r.slots newps) }, newps)

/-- `undo-proof` with `undo`. -/
def undoUndo (r : SlotTree σ φ κ δ) (ps : ℕ) : SlotTree σ φ κ δ × ℕ :=
  let tree := (r.tree.undoUndo d ps).1
  let newps := (r.tree.undoUndo d ps).2
  match r.tree.undone, r.undoneSlots with
  | some (undone, _), some oldps =>
    if ps = undone then
      ({ r with
         tree := tree
         slots := Function.update r.slots ps
          { r.slots ps with
            justification := oldps.justification
            currentRule := oldps.currentRule
            currentXrule := oldps.currentXrule
            printout := oldps.printout } }, newps)
    else ({ r with tree := tree }, newps)
  | _, _ => ({ r with tree := tree }, newps)

/-- `(undo …)` at `ps`, and `(undo undo)` where it leads to. -/
def undoThenUndoUndo (collect : SlotTree σ φ κ δ → ℕ → κ) (r : SlotTree σ φ κ δ)
    (info : ProofTree.Info) (ps : ℕ) (input input' : φ) (step step' : Step φ) :
    SlotTree σ φ κ δ × ℕ :=
  let (r', newps) := undoProof d collect (r.answer ps input step) info true ps
  undoUndo d (r'.answer newps input' step') newps

/-- All is as it was, but for what the user typed. -/
structure Restored (r r' : SlotTree σ φ κ δ) : Prop where
  node : ∀ n, r'.tree.node n = r.tree.node n
  slots : ∀ n, r'.slots n = { r.slots n with currentInput := (r'.slots n).currentInput }

variable {d}

/-! ### What is found -/

/-- Only the classes and the parents of proof states matter. -/
theorem findps_congr {t t' : ProofTree σ φ} (hkind : ∀ n, (t'.node n).kind = (t.node n).kind)
    (hparent : ∀ n, (t'.node n).parent = (t.node n).parent) (info : ProofTree.Info) (ps : ℕ) :
    t'.findps info ps = t.findps info ps := by
  have hnonstrat : ∀ n, t'.nonstratParent n = t.nonstratParent n := by
    intro n
    induction n using Nat.strong_induction_on with
    | _ n ih =>
      rw [ProofTree.nonstratParent, ProofTree.nonstratParent, hkind, hparent]
      split
      · split_ifs with hlt
        · exact ih _ hlt
        · rfl
      · rfl
  induction ps using Nat.strong_induction_on generalizing info with
  | _ ps ih =>
    rw [ProofTree.findps.eq_def, ProofTree.findps.eq_def t]
    simp only [hkind, hparent, hnonstrat]
    cases info with
    | number n =>
      cases (t.node ps).parent with
      | none => rfl
      | some par =>
        by_cases hlt : par < ps
        · simp only [hlt, if_true, ih par hlt]
        · simp only [hlt, if_false]
    | name isNamed =>
      cases (t.node ps).parent with
      | none => rfl
      | some par =>
        by_cases hlt : par < ps
        · simp only [hlt, if_true, ih par hlt]
        · simp only [hlt, if_false]

theorem findps_answer (r : SlotTree σ φ κ δ) (ps : ℕ) (input : φ) (step : Step φ)
    (info : ProofTree.Info) :
    (r.answer ps input step).tree.findps info ps = r.tree.findps info ps := by
  have hnode : ∀ n, ((r.answer ps input step).tree.node n).kind = (r.tree.node n).kind ∧
      ((r.answer ps input step).tree.node n).parent = (r.tree.node n).parent := by
    intro n
    by_cases hn : n = ps
    · subst hn
      simp [answer, ProofTree.setStrategy]
    · simp [answer, ProofTree.setStrategy, ProofTree.modify_node_of_ne _ hn]
  exact findps_congr (fun n => (hnode n).1) (fun n => (hnode n).2) info ps

/-! ### What is restored -/

section

variable {collect : SlotTree σ φ κ δ → ℕ → κ} {r : SlotTree σ φ κ δ} {info : ProofTree.Info}
  {ps newps : ℕ} {input input' : φ} {step step' : Step φ}

variable (d) in
theorem undoProof_tree (collect : SlotTree σ φ κ δ → ℕ → κ) (r : SlotTree σ φ κ δ)
    (info : ProofTree.Info) (sure : Bool) (ps : ℕ) :
    (undoProof d collect r info sure ps).1.tree = (r.tree.undoProof d info sure ps).1 ∧
    (undoProof d collect r info sure ps).2 = (r.tree.undoProof d info sure ps).2 := by
  unfold undoProof
  by_cases hnewps : (r.tree.undoProof d info sure ps).2 = ps
  · simp only [hnewps, if_true, and_self]
  · simp only [hnewps, if_false, and_self]

variable (d) in
theorem undoUndo_tree (r : SlotTree σ φ κ δ) (ps : ℕ) :
    (undoUndo d r ps).1.tree = (r.tree.undoUndo d ps).1 ∧
    (undoUndo d r ps).2 = (r.tree.undoUndo d ps).2 := by
  unfold undoUndo
  simp only
  split
  · split_ifs <;> exact ⟨rfl, rfl⟩
  · exact ⟨rfl, rfl⟩

variable (d) in
theorem undoProof_found (input : φ) (step : Step φ) (hfind : r.tree.findps info ps = some newps)
    (hne : newps ≠ ps) :
    ((r.answer ps input step).tree.undoProof d info true ps).2 = newps ∧
    ((r.answer ps input step).tree.undoProof d info true ps).1.undone =
      some (newps, r.tree.node newps, ps) := by
  rw [ProofTree.undoProof, findps_answer, hfind]
  simp only [Ne.symm hne, false_or, Bool.true_eq_false, if_false, true_and]
  rw [answer, ProofTree.setStrategy, ProofTree.modify_node_of_ne _ hne]

variable (d collect input input' step step') in
/-- The strategy of the goal is all that changes in the tree. -/
theorem node_undoThenUndoUndo (hfind : r.tree.findps info ps = some newps) (hne : newps ≠ ps) :
    (undoThenUndoUndo d collect r info ps input input' step step').2 = ps ∧
    (undoThenUndoUndo d collect r info ps input input' step step').1.tree.node =
      (r.tree.setStrategy ps (some (.form d.query))).node := by
  obtain ⟨hnewps, -⟩ := undoProof_found d input step hfind hne
  have hback : ((r.answer ps input step).tree.undoProof d info true ps).2 ≠ ps := by
    rw [hnewps]
    exact hne
  have hback := ProofTree.undoUndo_undoProof (some (.step step')) hback
  obtain ⟨htree, hps⟩ := undoProof_tree d collect (r.answer ps input step) info true ps
  unfold undoThenUndoUndo
  rw [← htree, ← hps] at hback
  generalize undoProof d collect (r.answer ps input step) info true ps = u at hback ⊢
  obtain ⟨htree', hps'⟩ := undoUndo_tree d (u.1.answer u.2 input' step') u.2
  refine ⟨?_, ?_⟩
  · exact hps'.trans (congrArg Prod.snd hback)
  · have hnode := congrArg ProofTree.node (htree'.trans (congrArg Prod.fst hback))
    refine hnode.trans ?_
    rw [answer, ProofTree.setStrategy, ProofTree.setStrategy, ProofTree.modify_modify]
    rfl

variable (d collect input input' step step') in
/-- `dependent-decls` stay away. -/
theorem slots_undoThenUndoUndo (hfind : r.tree.findps info ps = some newps) (hne : newps ≠ ps) :
    (undoThenUndoUndo d collect r info ps input input' step step').1.slots =
      Function.update (r.answer ps input step).slots newps
        { r.slots newps with dependentDecls := [], currentInput := some input' } := by
  obtain ⟨hnewps, hundone⟩ := undoProof_found d input step hfind hne
  have hslots : (r.answer ps input step).slots newps = r.slots newps := Function.update_of_ne hne _ _
  have hundo : undoProof d collect (r.answer ps input step) info true ps =
      ({ tree := ((r.answer ps input step).tree.undoProof d info true ps).1
         slots := Function.update (r.answer ps input step).slots newps
          { r.slots newps with
            justification := some (collect (r.answer ps input step) newps)
            dependentDecls := []
            currentRule := none
            currentXrule := none
            printout := none }
         undoneSlots := some (r.slots newps) }, newps) := by
    unfold undoProof
    simp only [hnewps, if_neg hne, hslots]
  rw [undoThenUndoUndo, hundo]
  simp only [answer, undoUndo, ProofTree.setStrategy, ProofTree.modify_undone]
  rw [answer, ProofTree.setStrategy] at hundone
  rw [hundone]
  simp only [if_true, Function.update_self, Function.update_idem]

end

/-- An undo of an undo restores everything if no declarations are noted at the proof state undone
to, and the goal waits for the user. -/
theorem undoUndo_restores_iff (collect : SlotTree σ φ κ δ → ℕ → κ) (r : SlotTree σ φ κ δ)
    (info : ProofTree.Info) {ps newps : ℕ} (input input' : φ) (step step' : Step φ)
    (hfind : r.tree.findps info ps = some newps) (hne : newps ≠ ps) :
    (undoThenUndoUndo d collect r info ps input input' step step').2 = ps ∧
        Restored r (undoThenUndoUndo d collect r info ps input input' step step').1 ↔
      (r.slots newps).dependentDecls = [] ∧ (r.tree.node ps).strategy = some (.form d.query) := by
  obtain ⟨hps, hnode⟩ := node_undoThenUndoUndo d collect input input' step step' hfind hne
  have hslots := slots_undoThenUndoUndo d collect input input' step step' hfind hne
  constructor
  · rintro ⟨-, hrestored⟩
    have hdecls := congrArg Slots.dependentDecls (hrestored.slots newps)
    have hstrategy := congrArg Proofstate.strategy (hrestored.node ps)
    rw [hslots, Function.update_self] at hdecls
    rw [hnode, ProofTree.setStrategy, ProofTree.modify_node_self] at hstrategy
    exact ⟨hdecls.symm, hstrategy.symm⟩
  · rintro ⟨hdecls, hstrategy⟩
    refine ⟨hps, ⟨fun n => ?_, fun n => ?_⟩⟩
    · rw [hnode, ProofTree.setStrategy]
      by_cases hn : n = ps
      · rw [hn, ProofTree.modify_node_self, ← hstrategy]
      · rw [ProofTree.modify_node_of_ne _ hn]
    · rw [hslots]
      by_cases hn : n = newps
      · simp only [hn, Function.update_self, hdecls]
      · rw [Function.update_of_ne hn]
        by_cases hn' : n = ps
        · simp only [answer, hn', Function.update_self]
        · simp only [answer, Function.update_of_ne hn']

/-! ### A proof with a lemma -/

/-- The root has its second subgoal before it; the lemma `decl` was used for the root. -/
def lemmaTree (decl : List String) : SlotTree Unit String Unit String where
  tree :=
    { node := fun
        | 0 => { currentGoal := (), kind := .top, parent := none, strategy := none
                 status := .query, done := [1], current := some 2, application := .reduced [1, 2] }
        | n + 1 => { currentGoal := (), kind := .plain, parent := some 0
                     strategy := some (.form "query")
                     status := if n = 0 then .bang else .nil }
      next := 3
      undone := none }
  slots := fun n =>
    { justification := none
      currentRule := if n = 0 then some "lemma" else none
      currentXrule := none
      parsedInput := if n = 0 then some "lemma" else none
      printout := none
      currentInput := if n = 0 then some "lemma" else none
      comment := none
      dependentDecls := if n = 0 then decl else [] }
  undoneSlots := none

def lemmaDriver : Driver Unit String := ⟨fun _ => false, id, "query"⟩

theorem findps_lemmaTree (decl : List String) : (lemmaTree decl).tree.findps (.number 1) 2 = some 0 := by
  simp [ProofTree.findps.eq_def, lemmaTree]

theorem undoUndo_restores_iff_lemmaTree :
    (undoThenUndoUndo lemmaDriver (fun _ _ => ()) (lemmaTree []) (.number 1) 2 "undo" "undo undo"
        (.rule "undo") (.rule "undo undo")).2 = 2 ∧
      Restored (lemmaTree []) (undoThenUndoUndo lemmaDriver (fun _ _ => ()) (lemmaTree []) (.number 1)
        2 "undo" "undo undo" (.rule "undo") (.rule "undo undo")).1 :=
  (undoUndo_restores_iff (d := lemmaDriver) (fun _ _ => ()) (lemmaTree []) (.number 1) "undo"
    "undo undo" (.rule "undo") (.rule "undo undo") (findps_lemmaTree []) (by decide)).2 ⟨rfl, rfl⟩

/-- The declaration that the root depends on is lost. -/
theorem not_undoUndo_restores : ¬ Restored (lemmaTree ["decl"])
    (undoThenUndoUndo lemmaDriver (fun _ _ => ()) (lemmaTree ["decl"]) (.number 1) 2 "undo"
      "undo undo" (.rule "undo") (.rule "undo undo")).1 := by
  intro hrestored
  have hslots := slots_undoThenUndoUndo lemmaDriver (fun _ _ => ()) "undo" "undo undo"
    (.rule "undo") (.rule "undo undo") (findps_lemmaTree ["decl"]) (by decide)
  have hdecls := congrArg Slots.dependentDecls (hrestored.slots 0)
  rw [hslots, Function.update_self] at hdecls
  exact absurd hdecls (by decide)

end SlotTree

end PVS.Prover
