import PVS.Library.Cells
import PVS.Judgements.JudgementMinimal

/-! The judgements on names of several contexts, where the lists of minimal judgements share
cells. -/

namespace PVS.Judgements

open Library

/-- `name-judgements`, of which the minimal judgements are a pointer to their list -/
structure SharedJudgements (T : Type) where
  minimal : Option ℕ
  generic : List (NameJudgement T)

/-- The `name-judgements-alist` of every context -/
structure Contexts (D T : Type) where
  heap : Cells (NameJudgement T)
  alists : List (List (D × SharedJudgements T))
  inHeap : ∀ alist ∈ alists, ∀ entry ∈ alist, heap.Mem entry.2.minimal

variable {D T : Type} [DecidableEq D]

theorem mem_of_assq {β : Type} {decl : D} {value : β} {alist : List (D × β)}
    (h : assq decl alist = some value) : (decl, value) ∈ alist := by
  obtain ⟨⟨d, v⟩, hfind, rfl⟩ := Option.map_eq_some_iff.1 h
  have hd : d = decl := by simpa using List.find?_some hfind
  exact hd ▸ List.mem_of_find?_eq_some hfind

namespace Contexts

/-- A new entry in a context, in a heap that has grown -/
def setEntry (s : Contexts D T) (heap : Cells (NameJudgement T))
    (hlen : s.heap.cells.length ≤ heap.cells.length) (context : ℕ)
    (alist : List (D × SharedJudgements T)) (halist : alist ∈ s.alists) (decl : D)
    (entry : SharedJudgements T) (hentry : heap.Mem entry.minimal) : Contexts D T where
  heap
  alists := s.alists.set context (acons decl entry alist)
  inHeap := by
    have hold : ∀ alist ∈ s.alists, ∀ entry ∈ alist, heap.Mem entry.2.minimal :=
      fun alist ha entry he p hp => (s.inHeap alist ha entry he p hp).trans_le hlen
    intro alist' ha' entry' he'
    obtain ha' | rfl := List.mem_or_eq_of_mem_set ha'
    · exact hold alist' ha' entry' he'
    · obtain rfl | he' := List.mem_cons.1 he'
      · exact hentry
      · exact hold alist halist entry' (List.mem_filter.1 he').1

variable (C : TypeTests T)

/-- `add-judgement-decl` on a name judgement, in a context -/
def addJudgementDecl (s : Contexts D T) (context : ℕ) (decl : D) (jdecl : NameJudgement T) :
    Contexts D T :=
  match ha : s.alists[context]? with
  | none => s
  | some alist =>
    have halist := List.mem_of_getElem? ha
    match he : assq decl alist with
    | none =>
      s.setEntry (s.heap.cons jdecl none .none) (by simp) context alist halist decl
        ⟨some s.heap.cells.length, []⟩ (by rintro _ ⟨⟩; simp)
    | some entry =>
      have hin : s.heap.Mem entry.minimal := s.inHeap alist halist _ (mem_of_assq he)
      match (s.heap.list entry.minimal).find? fun jd => C.subtypeOf jd.type jdecl.type with
      | some _ => s
      | none =>
        let deleted := Cells.deleteIf (fun jd => C.subtypeOf jdecl.type jd.type) s.heap
          entry.minimal hin
        s.setEntry (deleted.1.cons jdecl deleted.2 (Cells.deleteIf_mem hin))
          (by simp [deleted, (Cells.deleteIf_removed hin).cars.length]) context alist halist decl
          { entry with minimal := some deleted.1.cells.length } (by rintro _ ⟨⟩; simp)

/-- A context that starts with the judgements of another -/
def copyContext (s : Contexts D T) (context : ℕ) : Contexts D T where
  heap := s.heap
  alists := s.alists ++ (s.alists[context]?).toList
  inHeap alist ha := by
    obtain ha | ha := List.mem_append.1 ha
    · exact s.inHeap alist ha
    · exact s.inHeap alist (List.mem_of_getElem? (Option.mem_toList.1 ha))

inductive Operation (D T : Type)
  | add (context : ℕ) (decl : D) (jdecl : NameJudgement T)
  | copy (context : ℕ)

def Operation.context : Operation D T → ℕ
  | .add context _ _ => context
  | .copy context => context

def step (s : Contexts D T) : Operation D T → Contexts D T
  | .add context decl jdecl => s.addJudgementDecl C context decl jdecl
  | .copy context => s.copyContext context

def run (s : Contexts D T) (ops : List (Operation D T)) : Contexts D T := ops.foldl (step C) s

def entry (s : Contexts D T) (context : ℕ) (decl : D) : Option (SharedJudgements T) :=
  (s.alists[context]?).bind (assq decl)

/-- Where the list of minimal judgements of a name starts -/
def minimal (s : Contexts D T) (context : ℕ) (decl : D) : Option ℕ :=
  (s.entry context decl).bind SharedJudgements.minimal

def minimalJudgements (s : Contexts D T) (context : ℕ) (decl : D) : List (NameJudgement T) :=
  s.heap.list (s.minimal context decl)

/-- The other contexts have the minimal judgements after the operation that they had before. -/
def KeepsOthers (s : Contexts D T) (op : Operation D T) : Prop :=
  ∀ context < s.alists.length, context ≠ op.context → ∀ decl,
    (step C s op).minimalJudgements context decl = s.minimalJudgements context decl

/-- Where a judgement is added that none subsumes, no list of another context has a cell that
stays and of which the next one goes. -/
def SplicesNoOther (s : Contexts D T) : Operation D T → Prop
  | .copy _ => True
  | .add context decl jdecl =>
    (∀ jd ∈ s.minimalJudgements context decl, C.subtypeOf jd.type jdecl.type = false) →
      ∀ context' < s.alists.length, context' ≠ context → ∀ decl',
        ∀ c ∈ s.heap.chain (s.minimal context' decl'),
          ¬ s.heap.Spliced (fun jd => C.subtypeOf jdecl.type jd.type) (s.minimal context decl) c.1

variable {C} {s : Contexts D T} {context context' : ℕ} {decl decl' : D} {jdecl : NameJudgement T}

theorem mem_minimal : s.heap.Mem (s.minimal context decl) := by
  intro p hp
  obtain ⟨entry, he, hp⟩ := Option.bind_eq_some_iff.1 hp
  obtain ⟨alist, ha, he⟩ := Option.bind_eq_some_iff.1 he
  exact s.inHeap alist (List.mem_of_getElem? ha) _ (mem_of_assq he) p hp

theorem mem_minimalJudgements_of_entry {entry : SharedJudgements T}
    (he : s.entry context decl = some entry) :
    s.minimalJudgements context decl = s.heap.list entry.minimal := by
  simp [minimalJudgements, minimal, he]

theorem entry_eq {alist : List (D × SharedJudgements T)} (ha : s.alists[context]? = some alist) :
    s.entry context decl = assq decl alist := by
  simp [entry, ha]

section SetEntry

variable {heap : Cells (NameJudgement T)} {hlen : s.heap.cells.length ≤ heap.cells.length}
  {alist : List (D × SharedJudgements T)} {halist : alist ∈ s.alists}
  {new : SharedJudgements T} {hnew : heap.Mem new.minimal}

theorem entry_setEntry_self (ha : s.alists[context]? = some alist) :
    (s.setEntry heap hlen context alist halist decl new hnew).entry context decl = some new := by
  have hlt : context < s.alists.length := (List.getElem?_eq_some_iff.1 ha).1
  simp [entry, setEntry, hlt, assq_acons_self]

theorem entry_setEntry_of_ne (ha : s.alists[context]? = some alist)
    (hne : context' ≠ context ∨ decl' ≠ decl) :
    (s.setEntry heap hlen context alist halist decl new hnew).entry context' decl' =
      s.entry context' decl' := by
  by_cases hc : context' = context
  · have hlt : context < s.alists.length := (List.getElem?_eq_some_iff.1 ha).1
    have hdecl : decl' ≠ decl := hne.resolve_left fun h => h hc
    subst hc
    simp [entry, setEntry, hlt, assq_acons_of_ne hdecl, (List.getElem?_eq_some_iff.1 ha).2]
  · simp [entry, setEntry, List.getElem?_set_ne (Ne.symm hc)]

theorem minimal_setEntry_self (ha : s.alists[context]? = some alist) :
    (s.setEntry heap hlen context alist halist decl new hnew).minimal context decl =
      new.minimal := by
  rw [minimal, entry_setEntry_self ha]
  rfl

end SetEntry

/-- What adding a judgement does to the heap and to the entries -/
inductive Added (C : TypeTests T) (s : Contexts D T) (context : ℕ) (decl : D)
    (jdecl : NameJudgement T) : Contexts D T → Prop
  | unknown (hcontext : s.alists.length ≤ context) : Added C s context decl jdecl s
  | subsumed (jd : NameJudgement T) (hjd : jd ∈ s.minimalJudgements context decl)
      (hsub : C.subtypeOf jd.type jdecl.type = true) : Added C s context decl jdecl s
  | new (s' : Contexts D T) (removed : Cells (NameJudgement T)) (head : Option ℕ)
      (hhead : removed.Mem head)
      (hnone : ∀ jd ∈ s.minimalJudgements context decl, C.subtypeOf jd.type jdecl.type = false)
      (hremoved : Cells.Removed (fun jd => C.subtypeOf jdecl.type jd.type) s.heap none
        (s.minimal context decl) removed)
      (hlist : removed.list head = (s.minimalJudgements context decl).filter
        fun jd => !C.subtypeOf jdecl.type jd.type)
      (hheap : s'.heap = removed.cons jdecl head hhead)
      (hminimal : s'.minimal context decl = some removed.cells.length)
      (hframe : ∀ context' decl', context' ≠ context ∨ decl' ≠ decl →
        s'.entry context' decl' = s.entry context' decl') :
      Added C s context decl jdecl s'

theorem addJudgementDecl_added :
    Added C s context decl jdecl (s.addJudgementDecl C context decl jdecl) := by
  unfold addJudgementDecl
  split
  · rename_i ha
    exact .unknown (List.getElem?_eq_none_iff.1 ha)
  · rename_i alist ha
    split
    · rename_i he
      have hentry : s.entry context decl = none := (entry_eq ha).trans he
      have hminimal : s.minimal context decl = none := by simp [minimal, hentry]
      have hlist : s.minimalJudgements context decl = [] := by simp [minimalJudgements, hminimal]
      refine .new _ s.heap none .none (by simp [hlist]) ?_ (by simp [hlist]) rfl ?_
        fun _ _ => entry_setEntry_of_ne ha
      · rw [hminimal]
        exact .nil
      · exact minimal_setEntry_self ha
    · rename_i entry he
      have hentry : s.entry context decl = some entry := (entry_eq ha).trans he
      have hminimal : s.minimal context decl = entry.minimal := by simp [minimal, hentry]
      have hlist : s.minimalJudgements context decl = s.heap.list entry.minimal :=
        mem_minimalJudgements_of_entry hentry
      dsimp only
      split
      · rename_i jd hfind
        exact .subsumed jd (hlist ▸ List.mem_of_find?_eq_some hfind) 
          (by simpa using List.find?_some hfind)
      · rename_i hfind
        have hin : s.heap.Mem entry.minimal := hminimal ▸ mem_minimal
        refine .new _ (Cells.deleteIf _ s.heap entry.minimal hin).1 _ (Cells.deleteIf_mem hin)
          ?_ ?_ ?_ rfl ?_ fun _ _ => entry_setEntry_of_ne ha
        · rw [hlist]
          intro jd hjd
          simpa using List.find?_eq_none.1 hfind jd hjd
        · rw [hminimal]
          exact Cells.deleteIf_removed hin
        · rw [hlist]
          exact Cells.list_deleteIf hin
        · exact (minimal_setEntry_self ha).trans rfl

/-- The list of the name itself is the one that a context of its own would have. -/
theorem minimalJudgements_addJudgementDecl (hcontext : context < s.alists.length) :
    (s.addJudgementDecl C context decl jdecl).minimalJudgements context decl =
      insertMinimal (nameSubsumes C) jdecl (s.minimalJudgements context decl) := by
  have hadded : Added C s context decl jdecl (s.addJudgementDecl C context decl jdecl) :=
    addJudgementDecl_added
  unfold insertMinimal nameSubsumes
  generalize s.addJudgementDecl C context decl jdecl = s' at hadded ⊢
  cases hadded with
  | unknown h => exact absurd hcontext (not_lt.2 h)
  | subsumed jd hjd hsub =>
    rw [if_pos (List.any_eq_true.2 ⟨jd, hjd, hsub⟩)]
  | new _ removed head hhead hnone hremoved hlist hheap hminimal hframe =>
    rw [if_neg (by simpa using hnone), ← hlist, minimalJudgements, hminimal, hheap,
      Cells.list_cons]

theorem minimalJudgements_eq_iff (hne : context' ≠ context ∨ decl' ≠ decl) :
    (s.addJudgementDecl C context decl jdecl).minimalJudgements context' decl' =
        s.minimalJudgements context' decl' ↔
      ((∀ jd ∈ s.minimalJudgements context decl, C.subtypeOf jd.type jdecl.type = false) →
        ∀ c ∈ s.heap.chain (s.minimal context' decl'),
          ¬ s.heap.Spliced (fun jd => C.subtypeOf jdecl.type jd.type) (s.minimal context decl)
            c.1) := by
  have hadded : Added C s context decl jdecl (s.addJudgementDecl C context decl jdecl) :=
    addJudgementDecl_added
  generalize s.addJudgementDecl C context decl jdecl = s' at hadded ⊢
  cases hadded with
  | unknown hcontext =>
    refine iff_of_true rfl ?_
    rintro - c - ⟨x, q, y, hx, -⟩
    simp [minimal, entry, List.getElem?_eq_none hcontext] at hx
  | subsumed jd hjd hsub =>
    refine iff_of_true rfl fun hnone => ?_
    rw [hnone jd hjd] at hsub
    cases hsub
  | new _ removed head hhead hnone hremoved hlist hheap hminimal hframe =>
    have hmem : removed.Mem (s.minimal context' decl') := by
      intro p hp
      rw [hremoved.cars.length]
      exact mem_minimal p hp
    have hsame : s'.minimal context' decl' = s.minimal context' decl' := by
      rw [minimal, minimal, hframe context' decl' hne]
    rw [minimalJudgements, hsame, hheap, Cells.list_cons_of_mem _ hmem, minimalJudgements,
      hremoved.list_eq_iff]
    exact (imp_iff_right hnone).symm

theorem step_copy_minimalJudgements (hcontext : context' < s.alists.length) :
    (s.copyContext context).minimalJudgements context' decl =
      s.minimalJudgements context' decl := by
  simp [minimalJudgements, minimal, entry, copyContext, List.getElem?_append_left hcontext]

theorem keepsOthers_iff {op : Operation D T} : KeepsOthers C s op ↔ SplicesNoOther C s op := by
  cases op with
  | copy context => exact iff_of_true (fun _ hc _ _ => step_copy_minimalJudgements hc) trivial
  | add context decl jdecl =>
    constructor
    · intro hkeeps hnone context' hc hne decl'
      exact (minimalJudgements_eq_iff (.inl hne)).1 (hkeeps context' hc hne decl') hnone
    · intro hsplices context' hc hne decl'
      exact (minimalJudgements_eq_iff (.inl hne)).2 fun hnone => hsplices hnone context' hc hne decl'

theorem length_addJudgementDecl :
    (s.addJudgementDecl C context decl jdecl).alists.length = s.alists.length := by
  unfold addJudgementDecl setEntry
  split
  · rfl
  · split
    · simp
    · dsimp only
      split <;> simp

theorem length_step (op : Operation D T) : s.alists.length ≤ (step C s op).alists.length := by
  cases op with
  | add context decl jdecl => exact length_addJudgementDecl.ge
  | copy context => simp [step, copyContext]

/-- A context that nothing is added to keeps its minimal judgements, in a run that splices no
list of another context. -/
theorem run_minimalJudgements {ops : List (Operation D T)}
    (hsplices : ∀ before op after, ops = before ++ op :: after →
      SplicesNoOther C (run C s before) op)
    (hcontext : context < s.alists.length) (hops : ∀ op ∈ ops, op.context ≠ context) :
    (run C s ops).minimalJudgements context decl = s.minimalJudgements context decl := by
  induction ops generalizing s with
  | nil => rfl
  | cons op ops ih =>
    have hfirst := keepsOthers_iff.2 (hsplices [] op ops rfl) context hcontext
      (hops op List.mem_cons_self).symm decl
    have hrest : (run C (step C s op) ops).minimalJudgements context decl =
        (step C s op).minimalJudgements context decl := by
      refine ih ?_ (hcontext.trans_le (length_step op)) fun o ho => hops o (List.mem_cons_of_mem _ ho)
      rintro before o after rfl
      exact hsplices (op :: before) o after rfl
    exact hrest.trans hfirst

/-- Adding judgements to contexts changes no other context, exactly where nothing is spliced. -/
theorem run_keepsOthers_iff (C : TypeTests T) (s : Contexts D T) (ops : List (Operation D T)) :
    (∀ before op after, ops = before ++ op :: after → KeepsOthers C (run C s before) op) ↔
      ∀ before op after, ops = before ++ op :: after → SplicesNoOther C (run C s before) op := by
  simp only [keepsOthers_iff]

/-- The types are the multiples of a number. -/
def multiples : TypeTests ℕ where
  subtypeOf t t' := decide (t' ∣ t)
  tcEq t t' := decide (t = t')
  fullyInstantiated _ := true
  findSupertypeWithoutFreevars t := t
  frees _ := ∅
  substit t _ _ := t
  subtypeOf_refl t := by simp
  subtypeOf_trans h h' := by
    simpa using Nat.dvd_trans (of_decide_eq_true h') (of_decide_eq_true h)
  subtypeOf_substit _ _ h := h
  substit_self _ _ := rfl
  substit_substit _ _ _ := rfl

/-- A context without judgements -/
def initial : Contexts ℕ ℕ := ⟨⟨[], by simp⟩, [[]], by simp⟩

/-- A name has the multiples of 3 and of 2, and the copy of its context adds those of 4. -/
theorem multiples_not_keepsOthers :
    ¬ KeepsOthers multiples (run multiples initial [.add 0 0 ⟨2, 0⟩, .add 0 0 ⟨3, 1⟩, .copy 0])
      (.add 1 0 ⟨4, 2⟩) := by
  intro hkeeps
  have hlist := hkeeps 0 (by decide +kernel) (by decide) 0
  revert hlist
  decide +kernel

end Contexts
end PVS.Judgements
