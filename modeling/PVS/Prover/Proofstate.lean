import Mathlib.Data.List.Basic
import Mathlib.Logic.Function.Basic

/-! The proof tree and its driver. -/

namespace PVS.Prover

/-! ### Proof states -/

/-- The values of `status-flag`: nil, 0, ?, !, *, X and XX. -/
inductive Flag
  | nil
  | zero
  | query
  | bang
  | star
  | x
  | xx
  deriving DecidableEq

/-- `fresh?` -/
def Flag.isFresh : Flag → Bool
  | .nil | .zero => true
  | _ => false

/-- `rule-instance` and `strategy`. -/
inductive Step (φ : Type)
  | rule (input : φ)
  | strategy (topstep : Step φ) (subgoalStrategy failureStrategy : Option φ)
  | bad

/-- What `strategy` holds: an expression, or what it was evaluated to. -/
inductive Strategy (φ : Type)
  | form (f : φ)
  | step (s : Step φ)

/-- The classes of proof states: `proofstate`, `strat-proofstate`, `tcc-proofstate`, `top-proofstate`. -/
inductive Kind
  | plain
  | strat
  | tcc
  | top
  deriving DecidableEq

/-- What the rule that was applied to a proof state last made of it. -/
inductive Application
  | none
  | closed
  | reduced (subgoals : List ℕ)

/-- `proofstate`, where `application` is not a slot but what the slots are about. -/
structure Proofstate (σ φ : Type) where
  currentGoal : σ
  kind : Kind
  parent : Option ℕ
  strategy : Option (Strategy φ)
  status : Flag := .nil
  remaining : List ℕ := []
  pending : List ℕ := []
  done : List ℕ := []
  current : Option ℕ := none
  application : Application := .none

/-- All proof states, by the order in which they were made; the first one is the root. `undone` is
`*record-undone-proofstate*`. -/
structure ProofTree (σ φ : Type) where
  node : ℕ → Proofstate σ φ
  next : ℕ
  undone : Option (ℕ × Proofstate σ φ × ℕ)

/-- What the driver uses of the rest of the prover: `check-prop-axiom`, `clean-goal`, `query*-step`. -/
structure Driver (σ φ : Type) where
  propax : σ → Bool
  cleanGoal : σ → σ
  query : φ

variable {σ φ : Type}

def subgoalStrategy : Option (Strategy φ) → Option (Strategy φ)
  | some (.step (.strategy _ s _)) => s.map .form
  | _ => none

def failureStrategy : Option (Strategy φ) → Option (Strategy φ)
  | some (.step (.strategy _ _ s)) => s.map .form
  | _ => none

/-- Without subgoals, as before any rule was applied. -/
def Proofstate.clear (p : Proofstate σ φ) : Proofstate σ φ :=
  { p with remaining := [], pending := [], done := [], current := none, application := .none }

namespace ProofTree

variable (d : Driver σ φ) (t : ProofTree σ φ)

def modify (ps : ℕ) (f : Proofstate σ φ → Proofstate σ φ) : ProofTree σ φ :=
  { t with node := Function.update t.node ps (f (t.node ps)) }

@[simp] theorem modify_node_self (ps : ℕ) (f : Proofstate σ φ → Proofstate σ φ) :
    (t.modify ps f).node ps = f (t.node ps) := Function.update_self ..

theorem modify_node_of_ne {ps n : ℕ} (h : n ≠ ps) (f : Proofstate σ φ → Proofstate σ φ) :
    (t.modify ps f).node n = t.node n := Function.update_of_ne h _ _

@[simp] theorem modify_next (ps : ℕ) (f : Proofstate σ φ → Proofstate σ φ) :
    (t.modify ps f).next = t.next := rfl

@[simp] theorem modify_undone (ps : ℕ) (f : Proofstate σ φ → Proofstate σ φ) :
    (t.modify ps f).undone = t.undone := rfl

/-! ### Rules -/

/-- Which proof state `undo` goes back to. -/
inductive Info
  | number (n : ℕ)
  | name (isNamed : ℕ → Bool)

/-- What a rule answers. -/
inductive Response (σ : Type)
  | proved
  | subgoals (goals : List σ) (tccs : List σ)
  | falseTccs
  | unchanged
  | failed
  | postponed
  | undo (info : Info) (sure : Bool)
  | undoUndo

/-- `make-subgoal-proofstates`; a goal comes with the class of its proof state. -/
def makeSubgoalProofstates (ps : ℕ) (strategy : Option (Strategy φ)) (goals : List (Kind × σ)) :
    ProofTree σ φ × List ℕ :=
  let subgoal (n : ℕ) : Proofstate σ φ :=
    match goals[n - t.next]? with
    | some (kind, goal) => ⟨d.cleanGoal goal, kind, some ps, strategy, .nil, [], [], [], none, .none⟩
    | none => t.node n
  ({ t with node := fun n => if t.next ≤ n then subgoal n else t.node n
            next := t.next + goals.length }, List.range' t.next goals.length)

/-- `nonstrat-parent-proofstate`; a parent was made before its subgoals. -/
def nonstratParent (ps : ℕ) : ℕ :=
  match (t.node ps).kind, (t.node ps).parent with
  | .strat, some par => if par < ps then nonstratParent par else ps
  | _, _ => ps

def findps (info : Info) (ps : ℕ) : Option ℕ :=
  match info, (t.node ps).parent with
  | .number n, none => if (t.node ps).kind = .top ∨ n = 0 then some ps else none
  | .number n, some par =>
    if (t.node ps).kind = .top then some ps
    else if (t.node ps).kind = .strat then if par < ps then findps (.number n) par else none
    else if n = 0 then some ps
    else if par < ps then findps (.number (n - 1)) par else none
  | .name isNamed, none => if isNamed ps then some (t.nonstratParent ps) else none
  | .name isNamed, some par =>
    if isNamed ps then some (t.nonstratParent ps)
    else if (t.node ps).kind = .top then none
    else if par < ps then findps (.name isNamed) par else none
termination_by ps

def setStrategy (ps : ℕ) (strategy : Option (Strategy φ)) : ProofTree σ φ :=
  t.modify ps fun p => { p with strategy := strategy }

/-- `undo-proof` -/
def undoProof (info : Info) (sure : Bool) (ps : ℕ) : ProofTree σ φ × ℕ :=
  match t.findps info ps with
  | none => (t.setStrategy ps (some (.form d.query)), ps)
  | some newps =>
    if ps = newps ∨ sure = false then (t.setStrategy ps (some (.form d.query)), ps)
    else
      ({ t.modify newps fun p => { p.clear with status := .nil, strategy := some (.form d.query) } with
          undone := some (newps, t.node newps, ps) }, newps)

/-- `undo-proof` with `undo`. -/
def undoUndo (ps : ℕ) : ProofTree σ φ × ℕ :=
  match t.undone with
  | some (undone, oldps, newps) =>
    if ps = undone then
      ((t.modify ps fun p =>
        { oldps with currentGoal := p.currentGoal, kind := p.kind, parent := p.parent }).setStrategy
          newps (some (.form d.query)), newps)
    else (t.setStrategy ps (some (.form d.query)), ps)
  | none => (t.setStrategy ps (some (.form d.query)), ps)

/-- The effect of a rule on the proof state that it is applied to. -/
def applyRule (subgoalStrategy failureStrategy : Option φ) (ps : ℕ) :
    Response σ → ProofTree σ φ × ℕ
  | .proved => (t.modify ps fun p => { p with status := .bang, application := .closed }, ps)
  | .subgoals goals tccs =>
    let (t', subgoals) := t.makeSubgoalProofstates d ps (subgoalStrategy.map .form)
      (goals.map (Kind.plain, ·) ++ tccs.map (Kind.tcc, ·))
    (t'.modify ps fun p =>
      { p with
        status := .query
        remaining := subgoals
        strategy := if p.kind = .top then p.strategy else none
        application := .reduced subgoals }, ps)
  | .falseTccs | .unchanged =>
    (t.modify ps fun p => { p with status := .nil, strategy := failureStrategy.map .form }, ps)
  | .failed => (t.modify ps fun p => { p with status := .xx }, ps)
  | .postponed => (t.modify ps fun p => { p with status := .star }, ps)
  | .undo info sure => t.undoProof d info sure ps
  | .undoUndo => t.undoUndo d ps

def ruleApply (step : Step φ) (response : Response σ) (ps : ℕ) : ProofTree σ φ × ℕ :=
  match step with
  | .rule _ => t.applyRule d none none ps response
  | .strategy (.rule _) s f => t.applyRule d s f ps response
  | .strategy (.strategy topstep s f) _ _ =>
    let (t', subgoals) := t.makeSubgoalProofstates d ps (some (.step (.strategy topstep s f)))
      [(.strat, (t.node ps).currentGoal)]
    (t'.modify ps fun p =>
      { p with status := .query, remaining := subgoals, application := .reduced subgoals }, ps)
  | .strategy .bad _ _ | .bad =>
    (t.modify ps fun p => { p with status := .nil, strategy := failureStrategy p.strategy }, ps)

/-! ### The driver -/

def successStep (ps : ℕ) : ProofTree σ φ × ℕ :=
  (t.modify ps fun p => { p with status := .bang, current := none }, ps)

/-- `transfer-subgoal-strat` -/
def transferSubgoalStrat (strategy : Option (Strategy φ)) :
    ProofTree σ φ → List ℕ → List ℕ → ProofTree σ φ × List ℕ
  | t, [], accum => (t, accum)
  | t, c :: cs, accum =>
    let t' := t.modify c fun p =>
      if p.pending = [] then { p with strategy := subgoalStrategy strategy, status := .nil }
      else { p with strategy := strategy, status := .query }
    transferSubgoalStrat strategy t' cs (c :: accum)

def nextProofstate (ps : ℕ) : ProofTree σ φ × ℕ :=
  let p := t.node ps
  match p.parent with
  | none =>
    if p.status = .star then
      (t.modify ps fun p => { p with status := .zero, strategy := subgoalStrategy p.strategy }, ps)
    else (t, ps)
  | some par =>
    match p.status with
    | .x | .xx =>
      if (failureStrategy (t.node par).strategy).isNone ∨ p.status = .xx then
        (t.modify par fun q => { q with status := .x }, par)
      else
        (t.modify par fun q =>
          { q.clear with status := .zero, strategy := failureStrategy q.strategy }, par)
    | .star =>
      if p.kind = .strat ∧ p.pending = [] then
        (t.modify par fun q =>
          { q with
            status := .zero, strategy := failureStrategy q.strategy, current := none
            application := .none }, par)
      else (t.modify par fun q => { q with pending := ps :: q.pending, current := none }, par)
    | .bang => (t.modify par fun q => { q with done := ps :: q.done }, par)
    | _ => (t, par)

def postProcessingStep (ps : ℕ) : ProofTree σ φ × ℕ :=
  let p := t.node ps
  if (subgoalStrategy p.strategy).isNone then
    (t.modify ps fun p => { p with status := .star }).nextProofstate ps
  else
    let (t', remaining) := transferSubgoalStrat p.strategy t p.pending []
    (t'.modify ps fun p =>
      { p with
        remaining := remaining
        pending := []
        strategy := if p.kind = .top then p.strategy else none }, ps)

/-- What the strategy of a fresh proof state evaluates to, with the answer of the rule that it
applies; none if the user aborts it. -/
abbrev Input (σ φ : Type) := Option (Step φ × Response σ)

def proofstepper (ps : ℕ) (input : Input σ φ) : ProofTree σ φ × ℕ :=
  let p := t.node ps
  match p.status with
  | .nil | .zero =>
    if d.propax p.currentGoal then
      (t.modify ps fun p => { p with status := .bang, application := .closed }, ps)
    else
      match input with
      | some (step, response) =>
        (t.setStrategy ps (some (.step step))).ruleApply d step response ps
      | none =>
        let nps := t.nonstratParent ps
        (t.modify nps fun p => { p.clear with status := .nil, strategy := some (.form d.query) }, nps)
  | .query =>
    match p.remaining with
    | [] => if p.pending = [] then t.successStep ps else t.postProcessingStep ps
    | newps :: rest => (t.modify ps fun p => { p with remaining := rest, current := some newps }, newps)
  | _ => t.nextProofstate ps

end ProofTree

end PVS.Prover
