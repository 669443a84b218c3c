import PVS.GroundProver.Congruence

/-! The equations on the work list of `process1`: which of them `pr-merge` keeps. -/

namespace PVS.GroundProver

open Library SExp UnionFind

/-! ### The links between terms -/

/-- What every `pr-union` after `pr-find` keeps: links between roots, none of them to `nil`. -/
structure FindTable (st : ProverState) : Prop where
  wf : WF st.findalist
  proper : ∀ p ∈ st.findalist, p.2 ≠ nil

/-- The table of links has grown, and nothing has been lost from the work list. -/
structure Grown (st st' : ProverState) : Prop where
  table : FindTable st'
  links : ∀ x y, root st x = root st y → root st' x = root st' y
  s : st.s ⊆ st'.s

def Grows (st st' : ProverState) : Prop := FindTable st → Grown st st'

instance : Std.Refl Grows := ⟨fun _ h => ⟨h, fun _ _ e => e, List.Subset.refl _⟩⟩

instance : IsTrans ProverState Grows := ⟨fun _ _ _ h h₁ hst => by
  have hg := h hst
  have hg₁ := h₁ hg.table
  exact ⟨hg₁.table, fun x y e => hg₁.links x y (hg.links x y e), List.Subset.trans hg.s hg₁.s⟩⟩

abbrev Growing {α : Type} (m : ProverM α) : Prop := Preserves Grows m

/-- The theories link terms by `pr-union` alone, and only push onto the work list. -/
structure Theories.Grow (T : Theories) : Prop where
  adduseTimes : ∀ u ul, Growing (T.adduseTimes u ul)
  arithsolve : ∀ atf, Growing (T.arithsolve atf)
  tupsolve : ∀ atf, Growing (T.tupsolve atf)
  arraysolve : ∀ atf, Growing (T.arraysolve atf)
  addineq : ∀ ineq, Growing (T.addineq ineq)
  addneqNumber : ∀ t1 t2, Growing (T.addneqNumber t1 t2)
  reprocessTimesuse : ∀ t, Growing (T.reprocessTimesuse t)
  mergeApplyLambda : ∀ u newsig, Growing (T.mergeApplyLambda u newsig)
  mergeInterp : ∀ u newsig t1 t2, Growing (T.mergeInterp u newsig t1 t2)

section

variable {st st' : ProverState} {l r v : SExp}

theorem grows_of_findalist (hf : st'.findalist = st.findalist) (hs : st.s ⊆ st'.s) : Grows st st' := by
  intro h
  refine ⟨⟨hf ▸ h.wf, hf ▸ h.proper⟩, fun x y e => ?_, hs⟩
  rwa [root, root, hf]

theorem FindTable.evals_prFind (h : FindTable st) (v : SExp) :
    Evals (prFind v) st (.ok (root st v)) st := by
  apply LoopEvals.evals
  refine path_induction h.wf (P := fun v => LoopEvals _ v st (.ok (root st v)) st)
    (fun v hv => ?_) (fun v w hv hw => ?_) v
  · have hroot : root st v = v := (lookup_eq_none_iff h.wf v).1 hv
    have hnil : find1 st v = nil := by rw [find1, hv]; rfl
    rw [hroot]
    exact .done (.bind (evals_get st) (by rw [if_pos hnil]; exact evals_pure _ _))
  · have hfind : find1 st v = w := by rw [find1, hv]; rfl
    have hne : w ≠ nil := by
      obtain ⟨l₁, l₂, e, _⟩ := List.lookup_eq_some_iff.1 hv
      exact h.proper (v, w) (by simp [e])
    rw [root, ← rep_of_lookup h.wf hv]
    exact .step (.bind (evals_get st) (by rw [hfind, if_neg hne]; exact evals_pure _ _)) hw

theorem growing_prFind (v : SExp) : Growing (prFind v) := by
  refine Preserves.loop (fun v => ?_) v
  refine preserves_get.bind fun st => ?_
  by_cases hnil : find1 st v = nil
  · simp only [if_pos hnil]
    exact preserves_pure _
  · simp only [if_neg hnil]
    exact preserves_pure _

theorem growing_modify {f : ProverState → ProverState} (hf : ∀ st, (f st).findalist = st.findalist)
    (hs : ∀ st, st.s ⊆ (f st).s) : Growing (modify f : ProverM Unit) :=
  preserves_modify fun st => grows_of_findalist (hf st) (hs st)

theorem growing_putsig (sg v : SExp) : Growing (putsig sg v) :=
  growing_modify (fun _ => rfl) fun _ => List.Subset.refl _

theorem growing_putuse (ul : List SExp) (v : SExp) : Growing (putuse ul v) :=
  growing_modify (fun _ => rfl) fun _ => List.Subset.refl _

variable {T : Theories}

theorem growing_add2pot (atoms : List SExp) : Growing (add2pot T atoms) := by
  refine growing_modify (fun _ => rfl) fun st => ?_
  induction atoms with
  | nil => exact List.Subset.refl _
  | cons a atoms ih =>
    rw [List.foldr_cons]
    split
    · exact ih
    · exact List.Subset.trans ih (List.subset_cons_self _ _)

theorem growing_adduse (hT : T.Grow) (u v : SExp) : Growing (adduse T u v) := by
  unfold adduse
  split
  · exact preserves_pure _
  · refine preserves_get.bind fun st => ?_
    simp only
    split
    · exact preserves_pure _
    · refine (growing_putuse _ _).bind fun _ => ?_
      split
      · exact hT.adduseTimes _ _
      · exact preserves_pure _

theorem growing_solve (hT : T.Grow) (atf : SExp) : Growing (solve T atf) := by
  cases atf with
  | cons f args =>
    rw [solve]
    by_cases hif : memq f ifops = true
    · rw [if_pos hif]
      exact preserves_pure _
    · rw [if_neg hif]
      by_cases hrel : memq f arithrels = true
      · rw [if_pos hrel]
        exact hT.arithsolve _
      · rw [if_neg hrel]
        refine preserves_get.bind fun st => ?_
        simp only
        generalize atfType st (.cons f args) = t
        by_cases hnone : t = nil ∨ t = .sym "functional" ∨ t = .sym "bool"
        · rw [if_pos hnone]
          exact preserves_pure _
        · rw [if_neg hnone]
          by_cases harith : t = .sym "number" ∨ t = .sym "integer"
          · rw [if_pos harith]
            exact hT.arithsolve _
          · rw [if_neg harith]
            by_cases htuple : t = .sym "tuple"
            · rw [if_pos htuple]
              exact hT.tupsolve _
            · rw [if_neg htuple]
              exact hT.arraysolve _
  | _ => exact preserves_pure _

theorem growing_equate (hT : T.Grow) (u newsig t2 v : SExp) : Growing (equate T u newsig t2 v) := by
  refine (growing_prFind u).bind fun prU => (growing_prFind v).bind fun prV => ?_
  refine (growing_solve hT _).bind fun eqs => preserves_get.bind fun st => ?_
  refine (growing_add2pot _).bind fun _ => growing_modify (fun st => ?_) fun st => ?_
  · split <;> rfl
  · split <;> exact List.Subset.refl _

theorem growing_dropCongruent (hT : T.Grow) (u newsig t2 : SExp) (use2 : List SExp) :
    Growing (dropCongruent T u newsig t2 use2) := by
  induction use2 with
  | nil => exact preserves_pure _
  | cons v use2 ih =>
    rw [dropCongruent]
    refine preserves_get.bind fun st => ?_
    by_cases hsig : newsig = sig st v
    · rw [if_pos hsig]
      by_cases huv : u ≠ v
      · rw [if_pos huv]
        exact (growing_equate hT _ _ _ _).bind fun _ => ih
      · rw [if_neg huv]
        exact ih
    · rw [if_neg hsig]
      exact ih.bind fun _ => preserves_pure _

theorem growing_mergeUse (hT : T.Grow) (t1 t2 : SExp) (t2IsLambda : Bool) (u : SExp) :
    Growing (mergeUse T t1 t2 t2IsLambda u) := by
  unfold mergeUse
  split
  · refine preserves_get.bind fun st => preserves_get.bind fun st₁ => ?_
    split
    · exact hT.mergeApplyLambda _ _
    · split
      · refine (growing_putsig _ _).bind fun _ => preserves_get.bind fun st₂ => ?_
        exact (growing_dropCongruent hT _ _ _ _).bind fun _ => growing_putuse _ _
      · exact hT.mergeInterp _ _ _ _
  · exact preserves_pure _

/-! ### The equation that is popped -/

theorem root_root (h : FindTable st) (v : SExp) : root st (root st v) = root st v := rep_rep h.wf v

/-- The link of one root to another. -/
theorem FindTable.link (h : FindTable st) {t1 t2 : SExp} (h1 : root st t1 = t1) (h2 : root st t2 = t2)
    (hne : t1 ≠ t2) (hproper : t2 ≠ nil) :
    Grown st { st with findalist := (t1, t2) :: st.findalist } ∧
      ∀ x y, root st x = t1 → root st y = t2 →
        root { st with findalist := (t1, t2) :: st.findalist } x =
          root { st with findalist := (t1, t2) :: st.findalist } y := by
  refine ⟨⟨⟨⟨h1, h2, hne, h.wf⟩, List.forall_mem_cons.2 ⟨hproper, h.proper⟩⟩,
    fun x y e => rep_congr e _, List.Subset.refl _⟩, fun x y hx hy => ?_⟩
  rw [root] at hx hy
  rw [root, root, rep_cons, rep_cons, if_pos hx, if_neg (by rw [hy]; exact hne.symm), hy]

/-- `pr-merge` keeps the equation it is called with: no integer stands for its left side when none
stands for its right side. (`nil` stands for no term.) -/
structure Kept (st : ProverState) (l r : SExp) : Prop where
  integer : (root st l).integerp = true → (root st r).integerp = true
  left : root st l ≠ nil
  right : root st r ≠ nil

/-- After one root is linked to the other, whatever follows keeps the two sides together. -/
theorem union_keeps (h : FindTable st) (hne : root st l ≠ root st r) (hkept : Kept st l r)
    {m : PUnit → ProverM PUnit} (hm : ∀ u, Growing (m u)) {x y : SExp}
    (hxy : (x = root st l ∧ y = root st r) ∨ (x = root st r ∧ y = root st l))
    (heval : Evals (prUnion x y >>= m) st (.ok ⟨⟩) st') : Grown st st' ∧ root st' l = root st' r := by
  obtain ⟨u, st₁, hunion, heval⟩ := heval.ok_of_bind
  obtain ⟨-, rfl⟩ := hunion.unique (evals_modify _ _)
  rcases hxy with ⟨rfl, rfl⟩ | ⟨rfl, rfl⟩
  · have hlink := h.link (root_root h l) (root_root h r) hne hkept.right
    have hrest := hm u _ _ _ heval hlink.1.table
    refine ⟨(IsTrans.trans _ _ _ (fun _ => hlink.1) (fun _ => hrest) : Grows st st') h, ?_⟩
    exact hrest.links l r (hlink.2 l r rfl rfl)
  · have hlink := h.link (root_root h r) (root_root h l) hne.symm hkept.left
    have hrest := hm u _ _ _ heval hlink.1.table
    refine ⟨(IsTrans.trans _ _ _ (fun _ => hlink.1) (fun _ => hrest) : Grows st st') h, ?_⟩
    exact (hrest.links r l (hlink.2 r l rfl rfl)).symm

theorem prMerge_keeps (hT : T.Grow) (h : FindTable st) (hkept : Kept st l r)
    (heval : Evals (prMerge T l r) st (.ok ⟨⟩) st') : Grown st st' ∧ root st' l = root st' r := by
  unfold prMerge at heval
  obtain ⟨t1, st₁, hl, heval⟩ := heval.ok_of_bind
  obtain ⟨e, rfl⟩ := hl.unique (h.evals_prFind l)
  obtain rfl : t1 = root st₁ l := by simpa using e
  obtain ⟨t2, st₂, hr, heval⟩ := heval.ok_of_bind
  obtain ⟨e, rfl⟩ := hr.unique (h.evals_prFind r)
  obtain rfl : t2 = root st₂ r := by simpa using e
  by_cases heq : root st₂ l = root st₂ r
  · rw [if_pos heq] at heval
    obtain ⟨-, rfl⟩ := heval.unique (evals_pure _ _)
    exact ⟨⟨h, fun _ _ e => e, List.Subset.refl _⟩, heq⟩
  · rw [if_neg heq] at heval
    have hthrow : ¬ Evals (retfalse : ProverM PUnit) st₂ (.ok ⟨⟩) st' :=
      fun he => by cases (he.unique (evals_throw _ _)).1
    by_cases hint : (root st₂ l).integerp = true
    · rw [hint, hkept.integer hint] at heval
      exact absurd heval hthrow
    · rw [Bool.eq_false_iff.2 hint, Bool.false_and, if_neg Bool.false_ne_true,
        if_neg Bool.false_ne_true] at heval
      by_cases hpair : ((root st₂ l).consp && (root st₂ l).car.consp) = true
      · rw [if_pos hpair] at heval
        exact absurd heval hthrow
      · rw [if_neg hpair] at heval
        generalize ((root st₂ l).consp && isLambdaExpr (root st₂ l)) = swap at heval
        have hrest : ∀ (t1 t2 : SExp) (t2IsLambda : Bool) (_ : PUnit), Growing (do
            let st ← get
            (timesOrUse st t1).forM (mergeUse T t1 t2 t2IsLambda)) := fun t1 t2 t2IsLambda _ =>
          preserves_get.bind fun st => Preserves.forM (growing_mergeUse hT t1 t2 t2IsLambda) _
        cases swap with
        | true =>
          simp only [if_true] at heval
          split at heval
          · exact union_keeps h heq hkept (hrest _ _ _) (.inl ⟨rfl, rfl⟩) heval
          · exact union_keeps h heq hkept (hrest _ _ _) (.inr ⟨rfl, rfl⟩) heval
        | false =>
          simp only [Bool.false_eq_true, if_false] at heval
          split at heval
          · exact union_keeps h heq hkept (hrest _ _ _) (.inr ⟨rfl, rfl⟩) heval
          · exact union_keeps h heq hkept (hrest _ _ _) (.inl ⟨rfl, rfl⟩) heval

/-- What is lost: an integer stands for the left side, and for the right side something else. -/
theorem prMerge_loses (h : FindTable st) (hint : (root st l).integerp = true)
    (hnot : (root st r).integerp = false) : Evals (prMerge T l r) st (.ok ⟨⟩) st := by
  have hne : root st l ≠ root st r := fun e => by
    rw [e, hnot] at hint
    cases hint
  refine .bind (h.evals_prFind l) (.bind (h.evals_prFind r) ?_)
  rw [if_neg hne, hint, hnot, Bool.and_false, if_neg Bool.false_ne_true, if_pos rfl]
  exact evals_pure _ _

theorem growing_addneq (hT : T.Grow) (neqn : SExp) : Growing (addneq T neqn) := by
  have hrest : Growing (do
      let fnsym := SExp.cons neqn.lside neqn.rside
      adduse T (ofList [fnsym, neqn.lside]) neqn.lside
      adduse T (ofList [fnsym, neqn.rside]) neqn.rside
      if neqn.rside = .int 0 then T.reprocessTimesuse neqn.lside : ProverM PUnit) := by
    refine (growing_adduse hT _ _).bind fun _ => (growing_adduse hT _ _).bind fun _ => ?_
    split
    · exact hT.reprocessTimesuse _
    · exact preserves_pure _
  unfold addneq
  refine preserves_get.bind fun st => ?_
  simp only
  split
  · exact (hT.addneqNumber _ _).bind fun _ => hrest
  · exact hrest

/-! ### The loop -/

/-- The rounds of the loop of `process1`. -/
inductive Rounds (T : Theories) : List SExp → ProverState → List SExp → ProverState → Prop
  | refl (bools : List SExp) (st : ProverState) : Rounds T bools st bools st
  | step {bools bools₁ bools' : List SExp} {st st₁ st' : ProverState}
    (h : Evals (process1Step T bools) st (.ok (.inl bools₁)) st₁)
    (rest : Rounds T bools₁ st₁ bools' st') : Rounds T bools st bools' st'

/-- The equation that is popped in this state is kept. -/
def KeepsPopped (st : ProverState) : Prop :=
  ∀ e s, st.s = e :: s → e.funsym = .sym "equal" → Kept st e.lside e.rside

/-- An equation that is no longer on the work list has both sides in one class. -/
structure Advanced (st st' : ProverState) : Prop where
  table : FindTable st'
  links : ∀ x y, root st x = root st y → root st' x = root st' y
  retained : ∀ e ∈ st.s, e.funsym = .sym "equal" → e ∈ st'.s ∨ root st' e.lside = root st' e.rside

theorem Advanced.trans {st₁ : ProverState} (h : Advanced st st₁) (h₁ : Advanced st₁ st') :
    Advanced st st' := by
  refine ⟨h₁.table, fun x y e => h₁.links x y (h.links x y e), fun e he hequal => ?_⟩
  rcases h.retained e he hequal with he | hroot
  · exact h₁.retained e he hequal
  · exact .inr (h₁.links _ _ hroot)

/-- The first atom is popped; the others stay. -/
theorem Advanced.of_pop {exp : SExp} {rest : List SExp} (hs : st.s = exp :: rest)
    (hgrown : Grown { st with s := rest } st')
    (hexp : exp.funsym = .sym "equal" → root st' exp.lside = root st' exp.rside) :
    Advanced st st' := by
  refine ⟨hgrown.table, hgrown.links, fun e he hequal => ?_⟩
  rw [hs] at he
  rcases List.mem_cons.1 he with rfl | he
  · exact .inr (hexp hequal)
  · exact .inl (hgrown.s he)

theorem process1Step_advances (hT : T.Grow) {bools bools₁ : List SExp} (h : FindTable st)
    (hkeeps : KeepsPopped st) (heval : Evals (process1Step T bools) st (.ok (.inl bools₁)) st') :
    Advanced st st' := by
  obtain ⟨st₀, st₁, hget, hround⟩ := heval.ok_of_bind
  obtain ⟨e, rfl⟩ := hget.unique (evals_get st)
  obtain rfl : st₀ = st₁ := by simpa using e
  cases hs : st₀.s with
  | nil =>
    simp only [hs] at hround
    cases (hround.unique (evals_pure _ _)).1
  | cons exp rest =>
    simp only [hs] at hround
    obtain ⟨⟨⟩, st₁, hpop, hround⟩ := hround.ok_of_bind
    obtain ⟨-, rfl⟩ := hpop.unique (evals_modify _ _)
    have htable : FindTable { st₀ with s := rest } := ⟨h.wf, h.proper⟩
    have hgrown : ∀ {m : ProverM PUnit} {c : List SExp ⊕ List SExp} {v : List SExp ⊕ List SExp},
        Growing m → Evals (m >>= fun _ => pure c) { st₀ with s := rest } (.ok v) st' →
          Grown { st₀ with s := rest } st' := fun hm he =>
      (hm.bind fun _ => preserves_pure _) _ _ _ he htable
    by_cases htt : exp = tt
    · rw [if_pos htt] at hround
      obtain ⟨-, rfl⟩ := hround.unique (evals_pure _ _)
      refine .of_pop hs ⟨htable, fun _ _ e => e, List.Subset.refl _⟩ fun hequal => ?_
      rw [htt] at hequal
      exact absurd hequal (by decide)
    · rw [if_neg htt] at hround
      by_cases hff : exp = ff
      · rw [if_pos hff] at hround
        cases (hround.unique (evals_throw _ _)).1
      · rw [if_neg hff] at hround
        by_cases hequal : exp.funsym = .sym "equal"
        · rw [if_pos hequal] at hround
          obtain ⟨⟨⟩, st₁, hmerge, hround⟩ := hround.ok_of_bind
          obtain ⟨-, rfl⟩ := hround.unique (evals_pure _ _)
          have hkept := hkeeps exp rest hs hequal
          have hpopped : Kept { st₀ with s := rest } exp.lside exp.rside :=
            ⟨hkept.integer, hkept.left, hkept.right⟩
          have hmerged := prMerge_keeps hT htable hpopped hmerge
          exact .of_pop hs hmerged.1 fun _ => hmerged.2
        · rw [if_neg hequal] at hround
          refine .of_pop hs ?_ fun h => absurd h hequal
          by_cases hneq : exp.funsym = .sym "nequal"
          · rw [if_pos hneq] at hround
            exact hgrown (growing_addneq hT exp) hround
          · rw [if_neg hneq] at hround
            by_cases hrel : memq exp.funsym arithrels = true
            · rw [if_pos hrel] at hround
              exact hgrown (hT.addineq exp) hround
            · rw [if_neg hrel] at hround
              obtain ⟨-, rfl⟩ := hround.unique (evals_pure _ _)
              exact ⟨htable, fun _ _ e => e, List.Subset.refl _⟩

theorem rounds_advance (hT : T.Grow) {bools bools' : List SExp} (hrounds : Rounds T bools st bools' st')
    (h : FindTable st) (hkeeps : ∀ bools₁ st₁, Rounds T bools st bools₁ st₁ → KeepsPopped st₁) :
    Advanced st st' := by
  induction hrounds with
  | refl bools st => exact ⟨h, fun _ _ e => e, fun e he _ => .inl he⟩
  | step hstep _ ih =>
    have hfirst := process1Step_advances hT h (hkeeps _ _ (.refl _ _)) hstep
    exact hfirst.trans (ih hfirst.table fun bools₁ st₁ hr => hkeeps bools₁ st₁ (.step hstep hr))

/-- The loop ends when the work list is empty. -/
theorem s_of_process1Step {bools v : List SExp}
    (heval : Evals (process1Step T bools) st (.ok (.inr v)) st') : st' = st ∧ st'.s = [] := by
  obtain ⟨st₀, st₁, hget, hround⟩ := heval.ok_of_bind
  obtain ⟨e, rfl⟩ := hget.unique (evals_get st)
  obtain rfl : st₀ = st₁ := by simpa using e
  cases hs : st₀.s with
  | nil =>
    simp only [hs] at hround
    obtain ⟨-, rfl⟩ := hround.unique (evals_pure _ _)
    exact ⟨rfl, hs⟩
  | cons exp rest =>
    simp only [hs] at hround
    obtain ⟨-, st₁, -, hround⟩ := hround.ok_of_bind
    have hinl : ∀ {b : List SExp}, ¬ Evals (pure (.inl b) : ProverM (List SExp ⊕ List SExp)) st₁
        (.ok (.inr v)) st' := fun h => by cases (h.unique (evals_pure _ _)).1
    have hbind : ∀ {m : ProverM PUnit} {b : List SExp}, ¬ Evals
        (m >>= fun _ => (pure (.inl b) : ProverM (List SExp ⊕ List SExp))) st₁ (.ok (.inr v)) st' :=
      fun h => by
        obtain ⟨-, st₂, -, h⟩ := h.ok_of_bind
        cases (h.unique (evals_pure _ _)).1
    split at hround
    · exact absurd hround hinl
    · split at hround
      · cases (hround.unique (evals_throw _ _)).1
      · split at hround
        · exact absurd hround hbind
        · split at hround
          · exact absurd hround hbind
          · split at hround
            · exact absurd hround hbind
            · exact absurd hround hinl

theorem exists_rounds {bools v : List SExp}
    (heval : Evals (Fueled.loop (process1Step T) bools) st (.ok v) st') :
    ∃ bools', Rounds T bools st bools' st' ∧ st'.s = [] := by
  have hloop : ∀ k bools st, Evals (Fueled.loopN (process1Step T) k bools) st (.ok v) st' →
      ∃ bools', Rounds T bools st bools' st' ∧ st'.s = [] := by
    intro k
    induction k with
    | zero =>
      rintro bools st ⟨n, hn⟩
      cases hn
    | succ k ih =>
      intro bools st h
      obtain ⟨x, st₁, hstep, hrest⟩ := h.ok_of_bind
      cases x with
      | inl bools₁ =>
        obtain ⟨bools', hrounds, hnil⟩ := ih bools₁ st₁ hrest
        exact ⟨bools', .step hstep hrounds, hnil⟩
      | inr a =>
        obtain ⟨e, rfl⟩ := hrest.unique (evals_pure _ _)
        obtain rfl : v = a := by simpa using e
        obtain ⟨rfl, hs⟩ := s_of_process1Step hstep
        exact ⟨bools, .refl _ _, hs⟩
  obtain ⟨n, hn⟩ := heval
  exact hloop n bools st ⟨n, hn⟩

/-! ### The whole list -/

/-- `pr-find` has the same answer for both terms. -/
def SamePrFind (st : ProverState) (l r : SExp) : Prop :=
  ∃ t, Evals (prFind l) st (.ok t) st ∧ Evals (prFind r) st (.ok t) st

/-- No equation of the list is lost. -/
def RetainsEquations (T : Theories) (s : List SExp) (st : ProverState) : Prop :=
  ∀ v st', Evals (process1 T s) st (.ok v) st' → ∀ e ∈ s, e.funsym = .sym "equal" →
    SamePrFind st' e.lside e.rside

theorem process1_retains (T : Theories) (hT : T.Grow) (s : List SExp) (st : ProverState)
    (htable : FindTable st) (hkeeps : ∀ bools st₁, Rounds T [] { st with s := s } bools st₁ →
      KeepsPopped st₁) : RetainsEquations T s st := by
  intro v st' heval e he hequal
  obtain ⟨bools, st₁, hbind, heval⟩ := heval.ok_of_bind
  obtain ⟨-, rfl⟩ := heval.unique (evals_pure _ _)
  obtain ⟨r₁, st₂, hloop, hleave⟩ := hbind.of_within
  obtain ⟨rfl, rfl⟩ : r₁ = .ok bools ∧ { st₂ with s := st.s } = st' := by
    simpa only [Prod.mk.injEq] using hleave
  obtain ⟨bools', hrounds, hnil⟩ := exists_rounds hloop
  have hadvanced := rounds_advance hT hrounds ⟨htable.wf, htable.proper⟩ hkeeps
  have hroot : root st₂ e.lside = root st₂ e.rside := by
    refine (hadvanced.retained e he hequal).resolve_left fun hmem => ?_
    rw [hnil] at hmem
    cases hmem
  have htable' : FindTable { st₂ with s := st.s } := ⟨hadvanced.table.wf, hadvanced.table.proper⟩
  exact ⟨root st₂ e.lside, htable'.evals_prFind _, hroot ▸ htable'.evals_prFind _⟩

end

/-! ### The columns of two tuples -/

section

variable (T : Theories)

def processNoCanon (lit : SExp) : ProverM SExp := do
  if lit.consp && lit.funsym == .sym "not" then
    let s ← nsolve T lit.arg1
    processSolved T s
  else if (lit.consp && lit.car == tt) || lit == tt then pure tt
  else if (lit.consp && lit.car == ff) || lit == ff then retfalse
  else
    let s ← solve T lit
    processSolved T s

/-- The loop of `tupsolve` on an equation of two tuples. -/
def tupsolveColumns (lcols : List SExp) : List SExp → List SExp → ProverM (List SExp)
  | [], results => pure results
  | rcol :: rcols, results => do
    let eqn := equal (lcols.headD nil) rcol
    let result ← newcontext (processNoCanon T eqn)
    if result = ff then retfalse
    else if result = nil then
      let solved ← solve T eqn
      tupsolveColumns lcols.tail rcols (if results = [tt] then solved else solved ++ results)
    else if result.consp then
      tupsolveColumns lcols.tail rcols
        (if results = [tt] then result.toList else result.toList ++ results)
    else tupsolveColumns lcols.tail rcols results

end

/-! ### Columns whose equations are lost -/

/-- Two integer variables, in a context without equations. -/
def twoVariables : ProverState := { emptyState with
  typealist := [(.sym "x", .sym "integer"), (.sym "y", .sym "integer")] }

theorem noTheories_grow : noTheories.Grow where
  adduseTimes _ _ := preserves_pure _
  arithsolve _ := preserves_pure _
  tupsolve _ := preserves_pure _
  arraysolve _ := preserves_pure _
  addineq _ := preserves_pure _
  addneqNumber _ _ := preserves_pure _
  reprocessTimesuse _ := preserves_pure _
  mergeApplyLambda _ _ := preserves_pure _
  mergeInterp _ _ _ _ := preserves_pure _

theorem process1_retains_variables :
    RetainsEquations noTheories [equal (.sym "x") (.sym "y")] twoVariables := by
  refine process1_retains noTheories noTheories_grow _ _ ⟨trivial, by simp [twoVariables, emptyState]⟩
    fun bools st₁ hrounds => ?_
  have hfirst : Evals (process1Step noTheories [])
      { twoVariables with s := [equal (.sym "x") (.sym "y")] } (.ok (.inl []))
      { twoVariables with findalist := [(.sym "x", .sym "y")] } := ⟨8, by decide +kernel⟩
  have hlast : Evals (process1Step noTheories [])
      { twoVariables with findalist := [(.sym "x", .sym "y")] } (.ok (.inr []))
      { twoVariables with findalist := [(.sym "x", .sym "y")] } := ⟨8, by decide +kernel⟩
  cases hrounds with
  | refl =>
    intro e s hs _
    obtain ⟨rfl, rfl⟩ : equal (.sym "x") (.sym "y") = e ∧ [] = s := by simpa using hs
    exact ⟨by decide, by decide, by decide⟩
  | step h rest =>
    obtain ⟨e, rfl⟩ := h.unique hfirst
    obtain rfl : _ = [] := by simpa using e
    cases rest with
    | refl =>
      intro e s hs
      cases hs
    | step h _ => cases (h.unique hlast).1

/-- `(equal x y)` is popped when `3` stands for `x`, and for `y` no integer does. -/
theorem not_retains_columns : ∃ solved st,
    Evals (tupsolveColumns noTheories [.sym "x", .sym "x"] [.sym "y", .int 3] [tt]) twoVariables
      (.ok solved) st ∧ ¬ RetainsEquations noTheories solved twoVariables := by
  refine ⟨[equal (.sym "x") (.int 3), equal (.sym "x") (.sym "y")], twoVariables,
    ⟨8, by decide +kernel⟩, fun hretains => ?_⟩
  have hprocess : Evals (process1 noTheories [equal (.sym "x") (.int 3), equal (.sym "x") (.sym "y")])
      twoVariables (.ok nil) { twoVariables with findalist := [(.sym "x", .int 3)] } :=
    ⟨8, by decide +kernel⟩
  obtain ⟨t, hx, hy⟩ := hretains _ _ hprocess (equal (.sym "x") (.sym "y")) (by simp) rfl
  have hleft : Evals (prFind (.sym "x")) { twoVariables with findalist := [(.sym "x", .int 3)] }
      (.ok (.int 3)) { twoVariables with findalist := [(.sym "x", .int 3)] } := ⟨8, by decide +kernel⟩
  have hright : Evals (prFind (.sym "y")) { twoVariables with findalist := [(.sym "x", .int 3)] }
      (.ok (.sym "y")) { twoVariables with findalist := [(.sym "x", .int 3)] } :=
    ⟨8, by decide +kernel⟩
  have hsame : (Except.ok (.int 3) : Except Signal SExp) = .ok (.sym "y") :=
    (hleft.unique hx).1.trans (hright.unique hy).1.symm
  cases hsame

end PVS.GroundProver
