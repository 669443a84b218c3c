import Mathlib.Data.Set.Insert
import PVS.Library.Minimal

/-! The judgements on names and applications that a context keeps. -/

namespace PVS.Judgements

open Library

/-- The functions on types that are called. A variable is the number of a dependent binding. -/
structure TypeTests (T : Type) where
  subtypeOf : T → T → Bool
  tcEq : T → T → Bool
  fullyInstantiated : T → Bool
  findSupertypeWithoutFreevars : T → T
  frees : T → Set ℕ
  substit : T → ℕ → ℕ → T
  subtypeOf_refl : ∀ t, subtypeOf t t = true
  subtypeOf_trans : ∀ {t t' t''}, subtypeOf t t' = true → subtypeOf t' t'' = true →
    subtypeOf t t'' = true
  subtypeOf_substit : ∀ {t t'} x y, subtypeOf t t' = true →
    subtypeOf (substit t x y) (substit t' x y) = true
  substit_self : ∀ t x, substit t x x = t
  substit_substit : ∀ {t x} y z, frees t ⊆ {x} → substit (substit t x y) y z = substit t x z

variable {D T : Type} [DecidableEq D] [DecidableEq T]

structure NameJudgement (T : Type) where
  type : T
  uid : ℕ
  deriving DecidableEq

/-- `funtype`, of which the binding may be the only free variable of the range. -/
structure FunType (C : TypeTests T) where
  domain : T
  depBinding : Option ℕ
  range : T
  closed : C.frees range ⊆ { x | depBinding = some x }
  deriving DecidableEq

/-- The type is the one of the operator without its last argument lists. -/
structure ApplicationJudgement (C : TypeTests T) where
  judgementType : FunType C
  uid : ℕ
  deriving DecidableEq

section Tests

variable {C : TypeTests T}

namespace FunType

/-- `judgement-subsumes` -/
def subsumes (t1 t2 : FunType C) : Bool :=
  C.subtypeOf t2.domain t1.domain &&
    C.subtypeOf
      (match t1.depBinding, t2.depBinding with
        | some x, some y => C.substit t1.range x y
        | some _, none => C.findSupertypeWithoutFreevars t1.range
        | none, _ => t1.range)
      (match t1.depBinding, t2.depBinding with
        | none, some _ => C.findSupertypeWithoutFreevars t2.range
        | _, _ => t2.range)

/-- `tc-eq` -/
def tcEq (t1 t2 : FunType C) : Bool :=
  C.tcEq t1.domain t2.domain && t1.depBinding.isSome = t2.depBinding.isSome &&
    C.tcEq t1.range t2.range

end FunType

namespace ApplicationJudgement

def subsumes (d1 d2 : ApplicationJudgement C) : Bool := d1.judgementType.subsumes d2.judgementType

/-- `judgement-lt` -/
def lt (d1 d2 : ApplicationJudgement C) : Bool :=
  d1 ≠ d2 && (!d1.judgementType.tcEq d2.judgementType && d1.subsumes d2)

end ApplicationJudgement

end Tests

/-! ### The graph of an operator -/

/-- A judgement with its successors. -/
abbrev Graph (C : TypeTests T) := List (ApplicationJudgement C × List (ApplicationJudgement C))

section Graphs

variable {C : TypeTests T}

def Graph.nodes (graph : Graph C) : List (ApplicationJudgement C) := graph.map Prod.fst

/-- `add-appl-judgement-node*`, where `none` in the new graph is the place of the new node. -/
def addApplJudgementNode (jdecl : ApplicationJudgement C) :
    Graph C → List (ApplicationJudgement C) →
      List (Option (ApplicationJudgement C × List (ApplicationJudgement C))) →
        List (ApplicationJudgement C) → Graph C
  | [], succs, newGraph, _ =>
    let graph := newGraph.reverse.map fun node => node.getD (jdecl, succs)
    if newGraph.any Option.isNone then graph else (jdecl, succs) :: graph
  | (d, ds) :: graph, succs, newGraph, ignore =>
    if d ∈ ignore then
      addApplJudgementNode jdecl graph succs (some (d, ds) :: newGraph) (ds ++ ignore)
    else if jdecl.lt d then
      addApplJudgementNode jdecl graph (succs ++ [d])
        (if newGraph.any Option.isNone then some (d, ds) :: newGraph
          else some (d, ds) :: none :: newGraph)
        (ds ++ ignore)
    else if d.lt jdecl && !ds.any fun jd => jd.lt jdecl then
      let above := ds.filter fun jd => jdecl.lt jd
      addApplJudgementNode jdecl graph (succs ++ above)
        (some (d, ds.filter fun jd => !jdecl.lt jd) :: newGraph) (above ++ ignore)
    else addApplJudgementNode jdecl graph succs (some (d, ds) :: newGraph) ignore

def removeSubsumedApplicationNodes (jdecl : ApplicationJudgement C) (graph : Graph C) : Graph C :=
  (graph.filter fun node => !jdecl.subsumes node.1).map fun node =>
    (node.1, node.2.filter fun jd => !jdecl.subsumes jd)

def someJudgementSubsumes (jdecl : ApplicationJudgement C) (graph : Graph C) : Bool :=
  graph.any fun node => node.1.subsumes jdecl

/-- `add-judgement-decl-to-graph`, which returns `none` if the judgement is not needed. -/
def addJudgementDeclToGraph (jdecl : ApplicationJudgement C) (graph : Graph C) : Option (Graph C) :=
  if someJudgementSubsumes jdecl graph then none
  else some (addApplJudgementNode jdecl (removeSubsumedApplicationNodes jdecl graph) [] [] [])

end Graphs

/-! ### The store -/

@[ext]
structure NameJudgements (T : Type) where
  minimal : List (NameJudgement T)
  generic : List (NameJudgement T)

/-- `judgements`; a vector has a graph for every number of argument lists. -/
structure Store (D : Type) (C : TypeTests T) where
  nameAlist : List (D × NameJudgements T)
  applicationAlist : List (D × List (Option (Graph C)))

def assq {β : Type} (decl : D) (alist : List (D × β)) : Option β :=
  (alist.find? fun entry => entry.1 = decl).map Prod.snd

/-- A new entry in place of the one that there is. -/
def acons {β : Type} (decl : D) (value : β) (alist : List (D × β)) : List (D × β) :=
  (decl, value) :: alist.filter fun entry => entry.1 ≠ decl

variable (C : TypeTests T)

/-- `add-judgement-decl` on a name judgement -/
def addNameJudgement (decl : D) (jdecl : NameJudgement T) (s : Store D C) : Store D C :=
  match assq decl s.nameAlist with
  | none => { s with nameAlist := acons decl ⟨[jdecl], []⟩ s.nameAlist }
  | some entry =>
    match entry.minimal.find? fun jd => C.subtypeOf jd.type jdecl.type with
    | some _ => s
    | none =>
      let minimal := jdecl :: entry.minimal.filter fun jd => !C.subtypeOf jdecl.type jd.type
      { s with nameAlist := acons decl { entry with minimal } s.nameAlist }

/-- `add-judgement-decl` on an application judgement with so many argument lists, less one -/
def addApplicationJudgement (decl : D) (currynum : ℕ) (jdecl : ApplicationJudgement C)
    (s : Store D C) : Store D C :=
  let vector := (assq decl s.applicationAlist).getD []
  let newGraph :=
    match (vector[currynum]?).join with
    | some graph => addJudgementDeclToGraph jdecl graph
    | none => some [(jdecl, [])]
  match newGraph with
  | none => s
  | some graph =>
    let newVector := (List.range (max vector.length (currynum + 1))).map fun i =>
      if i = currynum then some graph else (vector[i]?).join
    { s with applicationAlist := acons decl newVector s.applicationAlist }

variable (uninstantiable : NameJudgement T → Bool)

/-- The loop of `merge-name-judgements*` -/
def mergeNameJudgementList : List (NameJudgement T) → NameJudgements T → NameJudgements T
  | [], old => old
  | jdecl :: news, old =>
    mergeNameJudgementList news <|
      if C.fullyInstantiated jdecl.type then
        if old.minimal.any fun jd => C.subtypeOf jd.type jdecl.type then old
        else
          { old with
            minimal := jdecl :: old.minimal.filter fun jd => !C.subtypeOf jdecl.type jd.type }
      else if jdecl ∈ old.generic ∨ uninstantiable jdecl = true ∨
          (old.generic.any fun jd => C.subtypeOf jd.type jdecl.type) = true then old
      else
        { old with
          generic := jdecl :: old.generic.filter fun jd => !C.subtypeOf jdecl.type jd.type }

/-- `merge-name-judgements` on one entry, after the substitution of the actuals -/
def mergeNameJudgements (decl : D) (fromMin fromGen : List (NameJudgement T)) (s : Store D C) :
    Store D C :=
  let entry := assq decl s.nameAlist
  let old := entry.getD ⟨[], []⟩
  if entry.isSome ∧ fromMin = old.minimal ∧
      (∀ jd ∈ old.minimal, C.fullyInstantiated jd.type = true) ∧ fromGen = old.generic then s
  else
    let new := mergeNameJudgementList C uninstantiable (fromMin ++ fromGen) old
    if new.minimal = old.minimal ∧ new.generic = old.generic then s
    else { s with nameAlist := acons decl new s.nameAlist }

inductive Step (D : Type) (C : TypeTests T)
  | addName (decl : D) (jdecl : NameJudgement T)
  | mergeName (decl : D) (fromMin fromGen : List (NameJudgement T))
  | addApplication (decl : D) (currynum : ℕ) (jdecl : ApplicationJudgement C)

def step (s : Store D C) : Step D C → Store D C
  | .addName decl jdecl => addNameJudgement C decl jdecl s
  | .mergeName decl fromMin fromGen => mergeNameJudgements C uninstantiable decl fromMin fromGen s
  | .addApplication decl currynum jdecl => addApplicationJudgement C decl currynum jdecl s

def run (steps : List (Step D C)) : Store D C := steps.foldl (step C uninstantiable) ⟨[], []⟩

end PVS.Judgements
