import Mathlib
import PVS.Judgements.JudgementStore

/-! What is kept of the judgements that were added. -/

namespace PVS.Judgements

open Library

variable {D T : Type} [DecidableEq D] {C : TypeTests T}

/-! ### The tests -/

theorem FunType.subsumes_refl (t : FunType C) : t.subsumes t = true := by
  unfold subsumes
  rw [C.subtypeOf_refl, Bool.true_and]
  cases t.depBinding with
  | none => exact C.subtypeOf_refl _
  | some x =>
    dsimp only
    rw [C.substit_self]
    exact C.subtypeOf_refl _

/-- Types that are all dependent, or all not. -/
theorem FunType.subsumes_trans {t1 t2 t3 : FunType C}
    (h12 : t1.depBinding.isSome = t2.depBinding.isSome)
    (h23 : t2.depBinding.isSome = t3.depBinding.isSome) (h : t1.subsumes t2 = true)
    (h' : t2.subsumes t3 = true) : t1.subsumes t3 = true := by
  unfold subsumes at h h' ⊢
  rw [Bool.and_eq_true] at h h' ⊢
  refine ⟨C.subtypeOf_trans h'.1 h.1, ?_⟩
  replace h := h.2
  replace h' := h'.2
  cases hx : t1.depBinding with
  | none =>
    rw [hx] at h12
    cases hy : t2.depBinding with
    | some y => simp [hy] at h12
    | none =>
      rw [hy] at h23
      cases hz : t3.depBinding with
      | some z => simp [hz] at h23
      | none =>
        simp only [hx, hy] at h
        simp only [hy, hz] at h'
        exact C.subtypeOf_trans h h'
  | some x =>
    rw [hx] at h12
    cases hy : t2.depBinding with
    | none => simp [hy] at h12
    | some y =>
      rw [hy] at h23
      cases hz : t3.depBinding with
      | none => simp [hz] at h23
      | some z =>
        simp only [hx, hy] at h
        simp only [hy, hz] at h'
        have hclosed : C.frees t1.range ⊆ {x} := by
          intro v hv
          exact (Option.some.inj (hx.symm.trans (t1.closed hv))).symm
        have hrenamed := C.subtypeOf_substit y z h
        rw [C.substit_substit y z hclosed] at hrenamed
        exact C.subtypeOf_trans hrenamed h'

def nameSubsumes (C : TypeTests T) (d1 d2 : NameJudgement T) : Bool := C.subtypeOf d1.type d2.type

theorem nameSubsumes_transOn (l : List (NameJudgement T)) : TransOn (nameSubsumes C) l :=
  fun _ _ _ _ _ _ h h' => C.subtypeOf_trans h h'

/-- The types of the judgements are all dependent, or all not. -/
def Uniform (l : List (ApplicationJudgement C)) : Prop :=
  ∀ d ∈ l, ∀ d' ∈ l, d.judgementType.depBinding.isSome = d'.judgementType.depBinding.isSome

theorem Uniform.transOn {l : List (ApplicationJudgement C)} (h : Uniform l) :
    TransOn ApplicationJudgement.subsumes l :=
  fun _ ha _ hb _ hc => FunType.subsumes_trans (h _ ha _ hb) (h _ hb _ hc)

/-! ### Association lists -/

section Alists

variable {β : Type} {decl decl' : D} {value : β} {alist : List (D × β)}

theorem assq_acons_self : assq decl (acons decl value alist) = some value := by
  simp [assq, acons]

theorem assq_acons_of_ne (h : decl' ≠ decl) :
    assq decl' (acons decl value alist) = assq decl' alist := by
  unfold assq acons
  rw [List.find?_cons_of_neg (by simpa using Ne.symm h), List.find?_filter]
  congr 2
  funext entry
  by_cases he : entry.1 = decl'
  · simp [he, h]
  · simp [he]

end Alists

/-! ### Names -/

def Store.nameJudgements (s : Store D C) (decl : D) : NameJudgements T :=
  (assq decl s.nameAlist).getD ⟨[], []⟩

theorem addNameJudgement_self (decl : D) (jdecl : NameJudgement T) (s : Store D C) :
    (addNameJudgement C decl jdecl s).nameJudgements decl =
      { s.nameJudgements decl with
        minimal := insertMinimal (nameSubsumes C) jdecl (s.nameJudgements decl).minimal } := by
  unfold Store.nameJudgements addNameJudgement insertMinimal nameSubsumes
  split
  · rename_i h
    simp [h, assq_acons_self]
  · rename_i entry h
    split
    · rename_i j hj
      have hany : entry.minimal.any (fun jd => C.subtypeOf jd.type jdecl.type) = true :=
        List.any_eq_true.2 ⟨j, List.mem_of_find?_eq_some hj, by simpa using List.find?_some hj⟩
      simp [h, hany]
    · rename_i hj
      have hany : entry.minimal.any (fun jd => C.subtypeOf jd.type jdecl.type) = false := by
        rwa [List.any_eq_false, ← List.find?_eq_none]
      simp [h, hany, assq_acons_self]

theorem addNameJudgement_of_ne {decl decl' : D} (hne : decl' ≠ decl) (jdecl : NameJudgement T)
    (s : Store D C) :
    (addNameJudgement C decl jdecl s).nameJudgements decl' = s.nameJudgements decl' := by
  unfold Store.nameJudgements addNameJudgement
  split
  · rw [assq_acons_of_ne hne]
  · split
    · rfl
    · rw [assq_acons_of_ne hne]

section Merge

variable [DecidableEq T] {uninstantiable : NameJudgement T → Bool}

/-- What goes to the generic judgements. -/
def isGeneric (C : TypeTests T) (uninstantiable : NameJudgement T → Bool) (d : NameJudgement T) :
    Bool :=
  !C.fullyInstantiated d.type && !uninstantiable d

theorem mergeNameJudgementList_eq (news : List (NameJudgement T)) (old : NameJudgements T) :
    mergeNameJudgementList C uninstantiable news old =
      ⟨(news.filter fun d => C.fullyInstantiated d.type).foldl
          (fun l d => insertMinimal (nameSubsumes C) d l) old.minimal,
        (news.filter (isGeneric C uninstantiable)).foldl
          (fun l d => insertMinimal (nameSubsumes C) d l) old.generic⟩ := by
  induction news generalizing old with
  | nil => rfl
  | cons d news ih =>
    rw [mergeNameJudgementList, ih]
    by_cases hinst : C.fullyInstantiated d.type = true
    · have hgen : isGeneric C uninstantiable d = false := by rw [isGeneric, hinst]; rfl
      have hinsert : insertMinimal (nameSubsumes C) d old.minimal =
          if old.minimal.any fun jd => C.subtypeOf jd.type d.type then old.minimal
          else d :: old.minimal.filter fun jd => !C.subtypeOf d.type jd.type := rfl
      simp only [hinst, if_true, List.filter_cons, hgen, Bool.false_eq_true, if_false,
        List.foldl_cons, hinsert]
      split <;> rfl
    · by_cases hun : uninstantiable d = true
      · have hgen : isGeneric C uninstantiable d = false := by
          rw [isGeneric, hun, Bool.not_true, Bool.and_false]
        simp [hinst, hgen, hun]
      · have hgen : isGeneric C uninstantiable d = true := by simp [isGeneric, hinst, hun]
        have hinsert : insertMinimal (nameSubsumes C) d old.generic =
            if old.generic.any fun jd => C.subtypeOf jd.type d.type then old.generic
            else d :: old.generic.filter fun jd => !C.subtypeOf d.type jd.type := rfl
        have hmem : (d ∈ old.generic ∨ uninstantiable d = true ∨
            (old.generic.any fun jd => C.subtypeOf jd.type d.type) = true) ↔
            (old.generic.any fun jd => C.subtypeOf jd.type d.type) = true := by
          constructor
          · rintro (h | h | h)
            · exact List.any_eq_true.2 ⟨d, h, C.subtypeOf_refl _⟩
            · exact absurd h hun
            · exact h
          · exact fun h => .inr (.inr h)
        simp only [hinst, if_false, List.filter_cons, hgen, if_true, List.foldl_cons, hmem,
          Bool.false_eq_true, hinsert]
        split <;> rfl

theorem mergeNameJudgements_of_ne {decl decl' : D} (hne : decl' ≠ decl)
    (fromMin fromGen : List (NameJudgement T)) (s : Store D C) :
    (mergeNameJudgements C uninstantiable decl fromMin fromGen s).nameJudgements decl' =
      s.nameJudgements decl' := by
  unfold Store.nameJudgements mergeNameJudgements
  dsimp only
  split
  · rfl
  · split
    · rfl
    · rw [assq_acons_of_ne hne]

variable (uninstantiable) in
/-- What is merged is added, or there already. -/
theorem mergeNameJudgements_self (decl : D) (fromMin fromGen : List (NameJudgement T))
    (s : Store D C) :
    let old := s.nameJudgements decl
    let new := (mergeNameJudgements C uninstantiable decl fromMin fromGen s).nameJudgements decl
    new = mergeNameJudgementList C uninstantiable (fromMin ++ fromGen) old ∨
      new = old ∧ fromMin = old.minimal ∧
        (∀ jd ∈ old.minimal, C.fullyInstantiated jd.type = true) ∧ fromGen = old.generic := by
  unfold Store.nameJudgements mergeNameJudgements
  dsimp only
  split
  · rename_i h
    exact .inr ⟨rfl, h.2⟩
  · split
    · rename_i h
      exact .inl (NameJudgements.ext h.1.symm h.2.symm)
    · rw [assq_acons_self]
      exact .inl rfl

end Merge

/-! ### Applications -/

section Applications

variable [DecidableEq T]

def Store.graph (s : Store D C) (decl : D) (currynum : ℕ) : Graph C :=
  ((((assq decl s.applicationAlist).getD [])[currynum]?).join).getD []

/-- No node has successors. -/
def Graph.Flat (graph : Graph C) : Prop := ∀ node ∈ graph, node.2 = []

theorem lt_eq_false {d d' : ApplicationJudgement C} (h : d.subsumes d' = false) :
    d.lt d' = false := by
  rw [ApplicationJudgement.lt, h, Bool.and_false, Bool.and_false]

/-- A judgement that is not comparable with any node becomes the first node. -/
theorem addApplJudgementNode_eq {jdecl : ApplicationJudgement C} (graph : Graph C)
    (hflat : graph.Flat) (hbelow : ∀ d ∈ graph.nodes, jdecl.lt d = false)
    (habove : ∀ d ∈ graph.nodes, d.lt jdecl = false) (newGraph : Graph C) :
    addApplJudgementNode jdecl graph [] (newGraph.map some) [] =
      (jdecl, []) :: (newGraph.reverse ++ graph) := by
  induction graph generalizing newGraph with
  | nil =>
    have hplaced : (newGraph.map some).any Option.isNone = false := by simp
    have hnodes : ((newGraph.map some).reverse.map fun node => node.getD (jdecl, [])) =
        newGraph.reverse := by
      rw [← List.map_reverse, List.map_map]
      exact List.map_id _
    rw [addApplJudgementNode]
    simp only [hplaced, hnodes, Bool.false_eq_true, if_false, List.append_nil]
  | cons node graph ih =>
    obtain ⟨d, ds⟩ := node
    have hds : ds = [] := hflat _ List.mem_cons_self
    rw [addApplJudgementNode, if_neg List.not_mem_nil,
      if_neg (Bool.eq_false_iff.1 (hbelow d List.mem_cons_self)),
      habove d List.mem_cons_self, Bool.false_and, if_neg Bool.false_ne_true]
    have hrest := ih (fun node hnode => hflat node (.tail _ hnode))
      (fun d hd => hbelow d (.tail _ hd)) (fun d hd => habove d (.tail _ hd)) ((d, ds) :: newGraph)
    rw [List.map_cons] at hrest
    rw [hrest, List.reverse_cons, List.append_assoc, List.singleton_append]

omit [DecidableEq T] in
theorem Graph.Flat.filter {graph : Graph C} (h : graph.Flat) (p : _ → Bool) :
    Graph.Flat (graph.filter p) :=
  fun node hnode => h node (List.mem_filter.1 hnode).1

theorem addJudgementDeclToGraph_spec (jdecl : ApplicationJudgement C) {graph : Graph C}
    (hflat : graph.Flat) :
    let new := (addJudgementDeclToGraph jdecl graph).getD graph
    new.Flat ∧ new.nodes = insertMinimal ApplicationJudgement.subsumes jdecl graph.nodes := by
  have hany : someJudgementSubsumes jdecl graph = graph.nodes.any fun d => d.subsumes jdecl := by
    rw [someJudgementSubsumes, Graph.nodes, List.any_map]
    rfl
  unfold addJudgementDeclToGraph insertMinimal
  rw [hany]
  dsimp only
  split
  · exact ⟨hflat, rfl⟩
  · rename_i hnone
    rw [Bool.not_eq_true, List.any_eq_false] at hnone
    have hremove : removeSubsumedApplicationNodes jdecl graph =
        graph.filter fun node => !jdecl.subsumes node.1 := by
      rw [removeSubsumedApplicationNodes]
      conv_rhs => rw [← List.map_id (graph.filter _)]
      apply List.map_congr_left
      intro node hnode
      have hnil := hflat.filter _ node hnode
      rw [hnil]
      exact Prod.ext rfl hnil.symm
    have hnodes : ∀ d ∈ Graph.nodes (graph.filter fun node => !jdecl.subsumes node.1),
        d ∈ graph.nodes ∧ jdecl.subsumes d = false := by
      intro d hd
      obtain ⟨node, hnode, rfl⟩ := List.mem_map.1 hd
      rw [List.mem_filter, Bool.not_eq_true'] at hnode
      exact ⟨List.mem_map_of_mem hnode.1, hnode.2⟩
    have hadd := addApplJudgementNode_eq _ (hflat.filter fun node => !jdecl.subsumes node.1)
      (fun d hd => lt_eq_false (hnodes d hd).2)
      (fun d hd => lt_eq_false (Bool.eq_false_iff.2 (hnone d (hnodes d hd).1))) []
    have hresult : addApplJudgementNode jdecl (graph.filter fun node => !jdecl.subsumes node.1)
        [] [] [] = (jdecl, []) :: graph.filter fun node => !jdecl.subsumes node.1 := hadd
    rw [hremove, hresult]
    constructor
    · rintro node (_ | ⟨_, hnode⟩)
      · rfl
      · exact hflat.filter _ node hnode
    · rw [Option.getD_some, Graph.nodes, Graph.nodes, List.map_cons, List.filter_map]
      rfl

theorem addApplicationJudgement_self (decl : D) (currynum : ℕ) (jdecl : ApplicationJudgement C)
    (s : Store D C) :
    (addApplicationJudgement C decl currynum jdecl s).graph decl currynum =
      (addJudgementDeclToGraph jdecl (s.graph decl currynum)).getD (s.graph decl currynum) := by
  unfold Store.graph addApplicationJudgement
  dsimp only
  have hnil : addJudgementDeclToGraph jdecl [] = some [(jdecl, [])] := rfl
  cases hold : (((assq decl s.applicationAlist).getD [])[currynum]?).join with
  | none => simp [hnil, assq_acons_self]
  | some graph =>
    cases hnew : addJudgementDeclToGraph jdecl graph with
    | none => simp [hold, hnew]
    | some graph' => simp [hnew, assq_acons_self]

theorem addApplicationJudgement_of_ne {decl decl' : D} {currynum currynum' : ℕ}
    (hne : decl' ≠ decl ∨ currynum' ≠ currynum) (jdecl : ApplicationJudgement C) (s : Store D C) :
    (addApplicationJudgement C decl currynum jdecl s).graph decl' currynum' =
      s.graph decl' currynum' := by
  unfold Store.graph addApplicationJudgement
  dsimp only
  split
  · rfl
  · by_cases hdecl : decl' = decl
    · rw [hdecl] at hne ⊢
      have hcurry := hne.resolve_left fun h => h rfl
      rw [assq_acons_self]
      congr 1
      rw [Option.getD_some, List.getElem?_map]
      by_cases hlt : currynum' < max ((assq decl s.applicationAlist).getD []).length (currynum + 1)
      · rw [List.getElem?_range hlt]
        simp [hcurry]
      · rw [List.getElem?_eq_none (by simpa using hlt), List.getElem?_eq_none (by omega)]
        rfl
    · rw [assq_acons_of_ne hdecl]

end Applications

/-! ### Runs -/

section Runs

variable [DecidableEq T] (uninstantiable : NameJudgement T → Bool)

/-- What a step adds to the minimal judgements on a name. -/
def Step.minimal (decl : D) : Step D C → List (NameJudgement T)
  | .addName decl' jdecl => if decl = decl' then [jdecl] else []
  | .mergeName decl' fromMin fromGen =>
    if decl = decl' then (fromMin ++ fromGen).filter fun d => C.fullyInstantiated d.type else []
  | .addApplication _ _ _ => []

/-- What a step adds to the generic judgements on a name. -/
def Step.generic (decl : D) : Step D C → List (NameJudgement T)
  | .mergeName decl' fromMin fromGen =>
    if decl = decl' then (fromMin ++ fromGen).filter (isGeneric C uninstantiable) else []
  | .addName _ _ => []
  | .addApplication _ _ _ => []

/-- What a step adds to the judgements on applications to so many arguments. -/
def Step.application (decl : D) (currynum : ℕ) : Step D C → List (ApplicationJudgement C)
  | .addApplication decl' currynum' jdecl =>
    if decl = decl' ∧ currynum = currynum' then [jdecl] else []
  | .addName _ _ => []
  | .mergeName _ _ _ => []

/-- What is kept of the judgements of some steps. -/
structure KeepsMinimal (steps : List (Step D C)) (s : Store D C) : Prop where
  minimal : ∀ decl,
    MinimalOf (nameSubsumes C) (steps.flatMap (Step.minimal decl)) (s.nameJudgements decl).minimal
  generic : ∀ decl,
    MinimalOf (nameSubsumes C) (steps.flatMap (Step.generic uninstantiable decl))
      (s.nameJudgements decl).generic
  application : ∀ decl currynum, Uniform (steps.flatMap (Step.application decl currynum)) →
    MinimalOf ApplicationJudgement.subsumes (steps.flatMap (Step.application decl currynum))
      (s.graph decl currynum).nodes
  successors : ∀ decl currynum, ∀ node ∈ s.graph decl currynum, ∀ d ∈ node.2,
    d ∈ (s.graph decl currynum).nodes ∧ node.1.lt d = true

variable {uninstantiable}

omit [DecidableEq T] in
theorem generic_not_instantiated {steps : List (Step D C)} {decl : D} {d : NameJudgement T}
    (h : d ∈ steps.flatMap (Step.generic uninstantiable decl)) :
    C.fullyInstantiated d.type = false := by
  obtain ⟨st, -, hd⟩ := List.mem_flatMap.1 h
  have hgen : ∀ {l : List (NameJudgement T)}, d ∈ l.filter (isGeneric C uninstantiable) →
      C.fullyInstantiated d.type = false := by
    intro l hd
    have hd := (List.mem_filter.1 hd).2
    rw [isGeneric, Bool.and_eq_true, Bool.not_eq_true'] at hd
    exact hd.1
  cases st with
  | mergeName decl' fromMin fromGen =>
    rw [Step.generic] at hd
    split at hd
    · exact hgen hd
    · cases hd
  | addName => cases hd
  | addApplication => cases hd

/-- A step on the judgements on a name. -/
theorem names_step {addedMin addedGen : List (NameJudgement T)} {s : Store D C} {decl : D}
    (hmin : MinimalOf (nameSubsumes C) addedMin (s.nameJudgements decl).minimal)
    (hgen : MinimalOf (nameSubsumes C) addedGen (s.nameJudgements decl).generic)
    (hnot : ∀ d ∈ addedGen, C.fullyInstantiated d.type = false) (st : Step D C) :
    MinimalOf (nameSubsumes C) (addedMin ++ st.minimal decl)
        ((step C uninstantiable s st).nameJudgements decl).minimal ∧
      MinimalOf (nameSubsumes C) (addedGen ++ st.generic uninstantiable decl)
        ((step C uninstantiable s st).nameJudgements decl).generic := by
  have hrefl : ∀ d : NameJudgement T, nameSubsumes C d d = true := fun d => C.subtypeOf_refl _
  cases st with
  | addApplication decl' currynum jdecl =>
    have hsame : (addApplicationJudgement C decl' currynum jdecl s).nameJudgements decl =
        s.nameJudgements decl := by
      unfold Store.nameJudgements addApplicationJudgement
      dsimp only
      split <;> rfl
    rw [step, hsame, Step.minimal, Step.generic, List.append_nil, List.append_nil]
    exact ⟨hmin, hgen⟩
  | addName decl' jdecl =>
    rw [step, Step.minimal, Step.generic, List.append_nil]
    by_cases hdecl : decl = decl'
    · rw [if_pos hdecl, ← hdecl, addNameJudgement_self]
      exact ⟨hmin.foldl hrefl [jdecl] (nameSubsumes_transOn _), hgen⟩
    · rw [if_neg hdecl, addNameJudgement_of_ne hdecl, List.append_nil]
      exact ⟨hmin, hgen⟩
  | mergeName decl' fromMin fromGen =>
    rw [step, Step.minimal, Step.generic]
    by_cases hdecl : decl = decl'
    · rw [if_pos hdecl, if_pos hdecl, ← hdecl]
      obtain hnew | ⟨hnew, hmins, hinst, hgens⟩ :=
        mergeNameJudgements_self uninstantiable decl fromMin fromGen s
      · rw [hnew, mergeNameJudgementList_eq]
        exact ⟨hmin.foldl hrefl _ (nameSubsumes_transOn _),
          hgen.foldl hrefl _ (nameSubsumes_transOn _)⟩
      · rw [hnew, hmins, hgens]
        constructor
        · apply hmin.append_of_subset hrefl
          intro d hd
          obtain ⟨hd, hfull⟩ := List.mem_filter.1 hd
          obtain hd | hd := List.mem_append.1 hd
          · exact hd
          · rw [hnot d (hgen.subset hd)] at hfull
            cases hfull
        · apply hgen.append_of_subset hrefl
          intro d hd
          obtain ⟨hd, hfull⟩ := List.mem_filter.1 hd
          obtain hd | hd := List.mem_append.1 hd
          · rw [isGeneric, hinst d hd] at hfull
            cases hfull
          · exact hd
    · rw [if_neg hdecl, if_neg hdecl, mergeNameJudgements_of_ne hdecl, List.append_nil,
        List.append_nil]
      exact ⟨hmin, hgen⟩

/-- A step on the judgements on applications. -/
theorem graph_step {s : Store D C} {decl : D} {currynum : ℕ}
    (hflat : (s.graph decl currynum).Flat) (st : Step D C) :
    ((step C uninstantiable s st).graph decl currynum).Flat ∧
      ((step C uninstantiable s st).graph decl currynum).nodes =
        (st.application decl currynum).foldl
          (fun l d => insertMinimal ApplicationJudgement.subsumes d l)
          (s.graph decl currynum).nodes := by
  cases st with
  | addApplication decl' currynum' jdecl =>
    rw [step, Step.application]
    by_cases hkey : decl = decl' ∧ currynum = currynum'
    · rw [if_pos hkey, ← hkey.1, ← hkey.2, addApplicationJudgement_self]
      exact addJudgementDeclToGraph_spec jdecl hflat
    · rw [if_neg hkey, addApplicationJudgement_of_ne (not_and_or.1 hkey)]
      exact ⟨hflat, rfl⟩
  | addName decl' jdecl =>
    have hsame : (addNameJudgement C decl' jdecl s).graph decl currynum = s.graph decl currynum := by
      unfold Store.graph addNameJudgement
      split
      · rfl
      · split <;> rfl
    rw [step, hsame]
    exact ⟨hflat, rfl⟩
  | mergeName decl' fromMin fromGen =>
    have hsame : (mergeNameJudgements C uninstantiable decl' fromMin fromGen s).graph decl currynum =
        s.graph decl currynum := by
      unfold Store.graph mergeNameJudgements
      dsimp only
      split
      · rfl
      · split <;> rfl
    rw [step, hsame]
    exact ⟨hflat, rfl⟩

theorem run_concat (steps : List (Step D C)) (st : Step D C) :
    run C uninstantiable (steps ++ [st]) = step C uninstantiable (run C uninstantiable steps) st := by
  rw [run, List.foldl_append]
  rfl

theorem flat_run (steps : List (Step D C)) (decl : D) (currynum : ℕ) :
    ((run C uninstantiable steps).graph decl currynum).Flat := by
  induction steps using List.reverseRecOn with
  | nil => exact fun _ h => nomatch h
  | append_singleton steps st ih =>
    rw [run_concat]
    exact (graph_step ih st).1

theorem names_run (steps : List (Step D C)) (decl : D) :
    MinimalOf (nameSubsumes C) (steps.flatMap (Step.minimal decl))
        ((run C uninstantiable steps).nameJudgements decl).minimal ∧
      MinimalOf (nameSubsumes C) (steps.flatMap (Step.generic uninstantiable decl))
        ((run C uninstantiable steps).nameJudgements decl).generic := by
  induction steps using List.reverseRecOn with
  | nil => exact ⟨.nil, .nil⟩
  | append_singleton steps st ih =>
    rw [run_concat, List.flatMap_append, List.flatMap_append, List.flatMap_singleton,
      List.flatMap_singleton]
    exact names_step ih.1 ih.2 (fun _ => generic_not_instantiated) st

theorem applications_run (steps : List (Step D C)) (decl : D) (currynum : ℕ)
    (h : Uniform (steps.flatMap (Step.application decl currynum))) :
    MinimalOf ApplicationJudgement.subsumes (steps.flatMap (Step.application decl currynum))
      ((run C uninstantiable steps).graph decl currynum).nodes := by
  induction steps using List.reverseRecOn with
  | nil => exact .nil
  | append_singleton steps st ih =>
    rw [List.flatMap_append, List.flatMap_singleton] at h ⊢
    have hprefix := ih fun d hd d' hd' =>
      h d (List.mem_append_left _ hd) d' (List.mem_append_left _ hd')
    rw [run_concat, (graph_step (flat_run steps decl currynum) st).2]
    exact hprefix.foldl (fun d => FunType.subsumes_refl _) _ h.transOn

theorem keepsMinimal_run (steps : List (Step D C)) :
    KeepsMinimal uninstantiable steps (run C uninstantiable steps) where
  minimal decl := (names_run steps decl).1
  generic decl := (names_run steps decl).2
  application := applications_run steps
  successors decl currynum node hnode d hd := by
    rw [flat_run steps decl currynum node hnode] at hd
    cases hd

/-- Each of one list is equivalent to one of the other. -/
def MutuallySubsumed {α : Type} (le : α → α → Bool) (l l' : List α) : Prop :=
  (∀ b ∈ l, ∃ c ∈ l', le b c = true ∧ le c b = true) ∧
    ∀ c ∈ l', ∃ b ∈ l, le c b = true ∧ le b c = true

theorem mutuallySubsumed_of_minimalOf {α : Type} {le : α → α → Bool} {added added' l l' : List α}
    (h : MinimalOf le added l) (h' : MinimalOf le added' l')
    (hsame : ∀ a, a ∈ added ↔ a ∈ added') (htrans : TransOn le added) :
    MutuallySubsumed le l l' :=
  ⟨h.exists_equiv h' hsame htrans,
    h'.exists_equiv h (fun a => (hsame a).symm) (htrans.mono fun a ha => (hsame a).2 ha)⟩

variable (uninstantiable)

/-- The same judgements are added, in any order and by any steps. -/
structure SameAdded (steps steps' : List (Step D C)) : Prop where
  minimal : ∀ decl d,
    d ∈ steps.flatMap (Step.minimal decl) ↔ d ∈ steps'.flatMap (Step.minimal decl)
  generic : ∀ decl d, d ∈ steps.flatMap (Step.generic uninstantiable decl) ↔
    d ∈ steps'.flatMap (Step.generic uninstantiable decl)
  application : ∀ decl currynum d, d ∈ steps.flatMap (Step.application decl currynum) ↔
    d ∈ steps'.flatMap (Step.application decl currynum)

structure SameKept (steps : List (Step D C)) (s s' : Store D C) : Prop where
  minimal : ∀ decl, MutuallySubsumed (nameSubsumes C) (s.nameJudgements decl).minimal
    (s'.nameJudgements decl).minimal
  generic : ∀ decl, MutuallySubsumed (nameSubsumes C) (s.nameJudgements decl).generic
    (s'.nameJudgements decl).generic
  application : ∀ decl currynum, Uniform (steps.flatMap (Step.application decl currynum)) →
    MutuallySubsumed ApplicationJudgement.subsumes (s.graph decl currynum).nodes
      (s'.graph decl currynum).nodes

theorem run_keeps_minimal (C : TypeTests T) :
    (∀ steps : List (Step D C), KeepsMinimal uninstantiable steps (run C uninstantiable steps)) ∧
      ∀ steps steps' : List (Step D C), SameAdded uninstantiable steps steps' →
        SameKept steps (run C uninstantiable steps) (run C uninstantiable steps') := by
  refine ⟨keepsMinimal_run, fun steps steps' hsame => ?_⟩
  have h : KeepsMinimal uninstantiable steps _ := keepsMinimal_run steps
  have h' : KeepsMinimal uninstantiable steps' _ := keepsMinimal_run steps'
  refine ⟨fun decl => ?_, fun decl => ?_, fun decl currynum huniform => ?_⟩
  · exact mutuallySubsumed_of_minimalOf (h.minimal decl) (h'.minimal decl) (hsame.minimal decl)
      (nameSubsumes_transOn _)
  · exact mutuallySubsumed_of_minimalOf (h.generic decl) (h'.generic decl) (hsame.generic decl)
      (nameSubsumes_transOn _)
  · have hadded := hsame.application decl currynum
    have huniform' : Uniform (steps'.flatMap (Step.application decl currynum)) := fun d hd d' hd' =>
      huniform d ((hadded d).2 hd) d' ((hadded d').2 hd')
    exact mutuallySubsumed_of_minimalOf (h.application decl currynum huniform)
      (h'.application decl currynum huniform') hadded huniform.transOn

end Runs

/-! ### Judgements that are lost -/

/-- `above x` is `{i: int | i > x}` and `below x` is `{i: nat | i < x}`. -/
inductive IntType
  | nat | int
  | above (x : ℕ)
  | below (x : ℕ)
  deriving DecidableEq

namespace IntType

def subtypeOf : IntType → IntType → Bool
  | nat, int => true
  | above _, int => true
  | below _, nat => true
  | below _, int => true
  | t, t' => t = t'

def supertype : IntType → IntType
  | above _ => int
  | below _ => nat
  | t => t

def frees : IntType → Set ℕ
  | above x => {x}
  | below x => {x}
  | _ => ∅

def substit : IntType → ℕ → ℕ → IntType
  | above z, x, y => above (if z = x then y else z)
  | below z, x, y => below (if z = x then y else z)
  | t, _, _ => t

/-- The variable 0 is a formal parameter. -/
def tests : TypeTests IntType where
  subtypeOf := subtypeOf
  tcEq t t' := t = t'
  fullyInstantiated t := t ≠ below 0
  findSupertypeWithoutFreevars := supertype
  frees := frees
  substit := substit
  subtypeOf_refl t := by cases t <;> simp [subtypeOf]
  subtypeOf_trans {t t' t''} h h' := by
    cases t <;> cases t' <;> cases t'' <;> simp_all [subtypeOf]
  subtypeOf_substit {t t'} x y h := by cases t <;> cases t' <;> simp_all [subtypeOf, substit]
  substit_self t x := by cases t <;> simp_all [substit]
  substit_substit {t x} y z h := by cases t <;> simp_all [substit, frees]

end IntType

open IntType in
theorem run_not_minimal :
    (let low : NameJudgement IntType := ⟨below 0, 1⟩
      let high : NameJudgement IntType := ⟨nat, 0⟩
      ((run tests (fun _ => false) [.mergeName () [high] [low]]).nameJudgements ()) =
          ⟨[high], [low]⟩ ∧
        nameSubsumes tests low high = true) ∧
      let x : ApplicationJudgement tests := ⟨⟨nat, some 1, above 1, by simp [tests, frees]⟩, 2⟩
      let y : ApplicationJudgement tests := ⟨⟨nat, none, nat, by simp [tests, frees]⟩, 3⟩
      let z : ApplicationJudgement tests := ⟨⟨int, some 2, below 2, by simp [tests, frees]⟩, 4⟩
      (((run tests (fun _ => false)
          [.addApplication () 0 x, .addApplication () 0 y, .addApplication () 0 z]).graph
            () 0).nodes = [z]) ∧
        z.subsumes x = false := by
  refine ⟨⟨rfl, rfl⟩, rfl, rfl⟩

end PVS.Judgements
