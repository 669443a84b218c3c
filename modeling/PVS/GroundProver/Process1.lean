import PVS.GroundProver.Closure
import Mathlib.Data.Finset.Basic

/-! The loop of `process1` on equations as a transition system: what a step keeps, that there are
finitely many, and that the code takes them. -/

namespace PVS.GroundProver

open Library SExp UnionFind

/-- An atom on `s`: `true` or an equation, of a pair only with a pair of the same two terms. -/
def Atom (st : ProverState) (a : SExp) : Prop :=
  a = tt ∨ ∃ l r, a = equal l r ∧ NodeIn st l ∧ NodeIn st r ∧ (IsPair l ∨ IsPair r → l.car = r.car)

structure Work (st : ProverState) : Prop where
  tables : Tables st
  atoms : ∀ a ∈ st.s, Atom st a

inductive Step : ProverState → ProverState → Prop
  | skip {st : ProverState} {s : List SExp} : st.s = tt :: s → Step st { st with s := s }
  | merge {st : ProverState} {s : List SExp} {l r : SExp} : st.s = equal l r :: s →
    root st l = root st r ∨ (¬ IsPair l ∧ ¬ IsPair r) →
    Step st (prMergeP l r { st with s := s })

abbrev Steps : ProverState → ProverState → Prop := Relation.ReflTransGen Step

/-- The next atom equates the two pairs of a disequality. -/
def Contradiction (st : ProverState) : Prop :=
  ∃ l r s, st.s = equal l r :: s ∧ IsPair l ∧ root st l ≠ root st r

section

variable {st st' : ProverState} {u v a b : SExp}

theorem IsPair.congr (h : u.car = v.car) : IsPair u ↔ IsPair v := by rw [IsPair, IsPair, h]

theorem Work.nodeIn_of_equal (h : Work st) {l r : SExp} {s : List SExp}
    (hs : st.s = equal l r :: s) : NodeIn st l ∧ NodeIn st r := by
  obtain e | ⟨l', r', e, hl, hr, _⟩ := h.atoms (equal l r) (by simp [hs])
  · simp at e
  · obtain ⟨rfl, rfl⟩ : l = l' ∧ r = r' := by simpa using e
    exact ⟨hl, hr⟩

theorem Work.cases (h : Work st) : st.s = [] ∨ Contradiction st ∨ ∃ st', Step st st' := by
  cases hs : st.s with
  | nil => exact .inl rfl
  | cons x s =>
    obtain rfl | ⟨l, r, rfl, hl, hr, hp⟩ := h.atoms x (by simp [hs])
    · exact .inr (.inr ⟨_, .skip hs⟩)
    · by_cases e : root st l = root st r
      · exact .inr (.inr ⟨_, .merge hs (.inl e)⟩)
      · by_cases pl : IsPair l
        · exact .inr (.inl ⟨l, r, s, hs, pl, e⟩)
        · have pr : ¬ IsPair r := fun pr => pl ((IsPair.congr (hp (.inr pr))).2 pr)
          exact .inr (.inr ⟨_, .merge hs (.inr ⟨pl, pr⟩)⟩)

/-! ### The code takes the steps -/

section

variable (T : Theories) (bools : List SExp)

theorem Work.evals_step (h : Work st) (hs : Step st st') :
    Evals (process1Step T bools) st (.ok (.inl bools)) st' := by
  cases hs with
  | @skip s hs =>
    refine .bind (evals_get st) ?_
    simp only [hs]
    exact .bind (evals_modify _ _) (evals_pure _ _)
  | @merge s l r hs hp =>
    obtain ⟨hl, hr⟩ := h.nodeIn_of_equal hs
    refine .bind (evals_get st) ?_
    simp only [hs]
    refine .bind (evals_modify _ _) ?_
    exact .bind ((h.tables.of_frame s st.dropped).evals_prMerge T hl hr hp) (evals_pure _ _)

theorem Work.evals_contradiction (h : Work st) (hc : Contradiction st) :
    ∃ s, Evals (process1Step T bools) st (.error .retfalse) { st with s := s } := by
  obtain ⟨l, r, s, hs, pl, hne⟩ := hc
  refine ⟨s, .bind (evals_get st) ?_⟩
  simp only [hs]
  refine .bind (evals_modify _ _) ?_
  exact .bind_throw ((h.tables.of_frame s st.dropped).evals_prMerge_pair T pl hne)

theorem evals_process1Step_nil (hs : st.s = []) :
    Evals (process1Step T bools) st (.ok (.inr bools)) st := by
  refine .bind (evals_get st) ?_
  simp only [hs]
  exact evals_pure _ _

end

/-! ### What a step keeps -/

/-- A step pops an atom that says nothing new, or pops an equation, links its sides and goes through
the rounds of the merge. -/
theorem Work.step_induction (h : Work st) (hs : Step st st') {P : ProverState → Prop}
    (pop : ∀ x s, st.s = x :: s → (∀ l r, x = equal l r → root st l = root st r) →
      P { st with s := s })
    (merge : ∀ l r s, st.s = equal l r :: s → NodeIn st l → NodeIn st r → root st l ≠ root st r →
      Tables (link (root st l) (root st r) { st with s := s }) →
      P (link (root st l) (root st r) { st with s := s }))
    (round : ∀ a b st u, Linked a b st → Registered st u → P st → P (mergeUseP a b st u)) :
    P st' := by
  cases hs with
  | @skip s hs => exact pop tt s hs fun l r e => by simp at e
  | @merge s l r hs hp =>
    by_cases e : root st l = root st r
    · have e' : prMergeP l r { st with s := s } = { st with s := s } := prMergeP_of_eq e
      rw [e']
      refine pop _ s hs fun l' r' e' => ?_
      obtain ⟨rfl, rfl⟩ : l = l' ∧ r = r' := by simpa using e'
      exact e
    · obtain ⟨pl, pr⟩ := hp.resolve_left e
      obtain ⟨hl, hr⟩ := h.nodeIn_of_equal hs
      have ht := h.tables.of_frame s st.dropped
      exact (ht.prMergeP_induction hl hr pl pr e
        (merge l r s hs hl hr e (ht.merge hl hr pl pr e))
        fun st' u hl hu hP => round _ _ st' u hl hu hP).2

theorem mem_s_mergeUseP_iff {t1 t2 x : SExp} : x ∈ (mergeUseP t1 t2 st u).s ↔ x ∈ st.s ∨
    ∃ v ∈ use st t2, newSignature st u t1 t2 = sig st v ∧ u ≠ v ∧
      x = eqAtom (root st u) (root st v) := by
  refine mem_collideAll_s.trans (or_congr Iff.rfl ?_)
  refine exists_congr fun v => and_congr Iff.rfl ?_
  rw [sig_signAs]
  constructor
  · rintro ⟨hs, hne, e⟩
    rw [if_neg hne.symm] at hs
    exact ⟨hs, hne, e⟩
  · rintro ⟨hs, hne, e⟩
    rw [if_neg hne.symm]
    exact ⟨hs, hne, e⟩

theorem Tables.car_eq (h : Tables st) {t1 t2 : SExp} (hv : Registered st v)
    (hs : newSignature st u t1 t2 = sig st v) : u.car = v.car := by
  obtain ⟨_, hf, _⟩ := h.signs v hv
  exact (congrArg car hs).trans hf

theorem Tables.atom_eqAtom (h : Tables st) (hu : NodeIn st u) (hv : NodeIn st v)
    (hc : u.car = v.car) : Atom st (eqAtom (root st u) (root st v)) := by
  have nu := h.nodeIn_root hu
  have nv := h.nodeIn_root hv
  obtain ⟨_, e⟩ | e | ⟨ht, e⟩ := eqAtom_cases (h.node nu) (h.node nv)
  · exact .inl e
  · refine .inr ⟨_, _, e, nu, nv, fun hp => ?_⟩
    rw [h.isPair_root, h.isPair_root, IsPair.congr hc, or_self] at hp
    rw [h.root_isPair hp, h.root_isPair ((IsPair.congr hc).2 hp), hc]
  · refine .inr ⟨_, _, e, nv, .inl ⟨"true", .inr (.inl rfl), rfl⟩, fun hp => ?_⟩
    have ht' : ¬ IsPair tt := by simp [IsPair, car, nil]
    rw [h.isPair_root, ← IsPair.congr hc, ← h.isPair_root, ht, or_self] at hp
    exact absurd hp ht'

theorem Atom.mono (hn : ∀ v, NodeIn st v → NodeIn st' v) {x : SExp} (h : Atom st x) :
    Atom st' x := by
  obtain h | ⟨l, r, e, hl, hr, hp⟩ := h
  · exact .inl h
  · exact .inr ⟨l, r, e, hn l hl, hn r hr, hp⟩

theorem Work.step (h : Work st) (hs : Step st st') : Work st' := by
  refine h.step_induction hs (fun x s hx _ => ?_) (fun l r s hx hl hr _ ht => ?_)
    fun a b st u hl hu hw => ?_
  · exact ⟨h.tables.of_frame s st.dropped, fun y hy => h.atoms y (by simp [hx, hy])⟩
  · exact ⟨ht, fun y hy => h.atoms y (hx ▸ List.mem_cons_of_mem _ hy)⟩
  · refine ⟨(hl.of_mergeUseP hu).tables, fun x hx => ?_⟩
    refine Atom.mono (fun v => (nodeIn_mergeUseP hu).2) ?_
    obtain hx | ⟨v, hv, hs, _, rfl⟩ := mem_s_mergeUseP_iff.1 hx
    · exact hw.atoms x hx
    · exact hl.tables.atom_eqAtom (.inr hu) (.inr (registered_of_use hv))
        (hl.tables.car_eq (registered_of_use hv) hs)

theorem Work.registered_step (h : Work st) (hs : Step st st') :
    Registered st' u ↔ Registered st u :=
  h.step_induction hs (P := fun st' => Registered st' u ↔ Registered st u) (fun _ _ _ _ => Iff.rfl)
    (fun _ _ _ _ _ _ _ _ => Iff.rfl) fun _ _ _ _ _ hu hi => (registered_mergeUseP hu).trans hi

theorem Work.applysymlist_step (h : Work st) (hs : Step st st') :
    st'.applysymlist = st.applysymlist := by
  refine h.step_induction hs (P := fun st' => st'.applysymlist = st.applysymlist)
    (fun _ _ _ _ => rfl) (fun _ _ _ _ _ _ _ _ => rfl) fun a b st u _ _ hi => ?_
  obtain ⟨s, d, e⟩ := mergeUseP_frame a b st u
  rw [e]
  exact hi

theorem Step.dropped (hs : Step st st') (hd : st'.dropped = []) : st.dropped = [] := by
  cases hs with
  | skip => exact hd
  | @merge s l r _ _ =>
    unfold prMergeP at hd
    split at hd
    · exact hd
    · have e := dropped_of_foldl hd
      exact e

theorem Work.closed_step (h : Work st) (hc : Closed st) (hs : Step st st')
    (hd : st'.dropped = []) : Closed st' := by
  cases hs with
  | @skip s hs => exact hc.pop hs fun l r e => by simp at e
  | @merge s l r hs hp =>
    by_cases e : root st l = root st r
    · have e' : prMergeP l r { st with s := s } = { st with s := s } := prMergeP_of_eq e
      rw [e']
      refine hc.pop hs fun l' r' e' => ?_
      obtain ⟨rfl, rfl⟩ : l = l' ∧ r = r' := by simpa using e'
      exact e
    · obtain ⟨pl, pr⟩ := hp.resolve_left e
      obtain ⟨hl, hr⟩ := h.nodeIn_of_equal hs
      exact hc.of_prMergeP h.tables hs hl hr pl pr e hd

/-! ### What a run keeps -/

theorem Steps.work (hs : Steps st st') (h : Work st) : Work st' := by
  induction hs with
  | refl => exact h
  | tail _ hs ih => exact ih.step hs

theorem Steps.registered (hs : Steps st st') (h : Work st) :
    Registered st' u ↔ Registered st u := by
  induction hs with
  | refl => exact Iff.rfl
  | tail hss hs ih => exact ((Steps.work hss h).registered_step hs).trans ih

theorem Steps.applysymlist (hs : Steps st st') (h : Work st) :
    st'.applysymlist = st.applysymlist := by
  induction hs with
  | refl => rfl
  | tail hss hs ih => exact ((Steps.work hss h).applysymlist_step hs).trans ih

theorem Steps.closed (hs : Steps st st') (h : Work st) (hd : st'.dropped = [])
    (hc : st.dropped = [] → Closed st) : Closed st' := by
  induction hs with
  | refl => exact hc hd
  | tail hss hs ih => exact (Steps.work hss h).closed_step (ih (hs.dropped hd)) hs hd

/-! ### The loop ends -/

/-- All terms that a merge can link are in `X`. -/
structure Bound (X : Finset SExp) (st : ProverState) : Prop where
  registered : ∀ u, Registered st u → u ∈ X
  links : ∀ p ∈ st.findalist, p.1 ∈ X ∧ p.2 ∈ X
  atoms : ∀ l r, equal l r ∈ st.s → l ∈ X ∧ r ∈ X

theorem Bound.root_mem {X : Finset SExp} (h : Bound X st) (hv : v ∈ X) : root st v ∈ X := by
  obtain e | ⟨p, hp, e⟩ := rep_eq_self_or_mem st.findalist v
  · rwa [root, e]
  · rw [root, ← e]
    exact (h.links p hp).2

theorem findalist_mergeUseP {t1 t2 : SExp} :
    (mergeUseP t1 t2 st u).findalist = st.findalist := by
  obtain ⟨s, d, e⟩ := mergeUseP_frame t1 t2 st u
  rw [e]

theorem Bound.of_mergeUseP {X : Finset SExp} (h : Bound X st) (hl : Linked a b st)
    (hu : Registered st u) : Bound X (mergeUseP a b st u) := by
  refine ⟨fun w hw => h.registered w ((registered_mergeUseP hu).1 hw), fun p hp => ?_,
    fun l r hm => ?_⟩
  · exact h.links p (findalist_mergeUseP ▸ hp)
  · obtain hm | ⟨v, hv, hs, _, e⟩ := mem_s_mergeUseP_iff.1 hm
    · exact h.atoms l r hm
    · have hv := registered_of_use hv
      have xu := h.root_mem (h.registered u hu)
      have xv := h.root_mem (h.registered v hv)
      obtain ⟨_, e'⟩ | e' | ⟨ht, e'⟩ :=
        eqAtom_cases (hl.tables.node_root hu) (hl.tables.node_root hv)
      · simp [e'] at e
      · obtain ⟨rfl, rfl⟩ : l = root st u ∧ r = root st v := by simpa [e'] using e
        exact ⟨xu, xv⟩
      · obtain ⟨rfl, rfl⟩ : l = root st v ∧ r = tt := by simpa [e'] using e
        exact ⟨xv, ht ▸ xu⟩

theorem Bound.step {X : Finset SExp} (hb : Bound X st) (h : Work st) (hs : Step st st') :
    Bound X st' := by
  refine h.step_induction hs (fun x s hx _ => ?_) (fun l r s hx hl hr _ _ => ?_)
    fun a b st u hl hu hb => hb.of_mergeUseP hl hu
  · exact ⟨hb.registered, hb.links, fun l r hm => hb.atoms l r (by simp [hx, hm])⟩
  · have ⟨xl, xr⟩ := hb.atoms l r (by simp [hx])
    refine ⟨hb.registered, fun p hp => ?_,
      fun l r hm => hb.atoms l r (hx ▸ List.mem_cons_of_mem _ hm)⟩
    obtain rfl | hp := List.mem_cons.1 hp
    · exact ⟨hb.root_mem xl, hb.root_mem xr⟩
    · exact hb.links p hp

theorem findalist_prMergeP {l r : SExp} (hne : root st l ≠ root st r) :
    (prMergeP l r st).findalist = (root st l, root st r) :: st.findalist := by
  rw [prMergeP, if_neg hne]
  exact List.foldlRecOn (motive := fun st' : ProverState =>
    st'.findalist = (root st l, root st r) :: st.findalist) _ _ rfl fun st' hi u _ => findalist_mergeUseP.trans hi

/-- A step shortens `s` or adds a link. -/
theorem Step.length (hs : Step st st') :
    (st'.findalist.length = st.findalist.length ∧ st'.s.length < st.s.length) ∨
      st'.findalist.length = st.findalist.length + 1 := by
  cases hs with
  | @skip s hs => exact .inl ⟨rfl, by simp [hs]⟩
  | @merge s l r hs hp =>
    by_cases e : root st l = root st r
    · have e' : prMergeP l r { st with s := s } = { st with s := s } := prMergeP_of_eq e
      exact .inl ⟨by rw [e'], by simp [e', hs]⟩
    · have e' : (prMergeP l r { st with s := s }).findalist = _ :: st.findalist :=
        findalist_prMergeP e
      exact .inr (by rw [e', List.length_cons])

theorem exists_bound (st : ProverState) : ∃ X, Bound X st := by
  refine ⟨(st.usealist.flatMap Prod.snd ++ (st.findalist.map Prod.fst ++ st.findalist.map Prod.snd)
    ++ (st.s.map lside ++ st.s.map rside)).toFinset, fun u hu => ?_, fun p hp => ?_,
    fun l r hm => ?_⟩
  · obtain ⟨p, hp, hu⟩ := hu
    have : u ∈ st.usealist.flatMap Prod.snd := List.mem_flatMap.2 ⟨p, hp, hu⟩
    simp [this]
  · have h₁ : p.1 ∈ st.findalist.map Prod.fst := List.mem_map_of_mem hp
    have h₂ : p.2 ∈ st.findalist.map Prod.snd := List.mem_map_of_mem hp
    simp only [List.mem_toFinset, List.mem_append]
    exact ⟨.inl (.inr (.inl h₁)), .inl (.inr (.inr h₂))⟩
  · have h₁ : l ∈ st.s.map lside := List.mem_map.2 ⟨_, hm, rfl⟩
    have h₂ : r ∈ st.s.map rside := List.mem_map.2 ⟨_, hm, rfl⟩
    simp only [List.mem_toFinset, List.mem_append]
    exact ⟨.inr (.inl h₁), .inr (.inr h₂)⟩

/-- The end of the loop: `s` is empty, or a contradiction throws. -/
def Ends (T : Theories) (bools : List SExp) (st st' : ProverState) : Prop :=
  (st'.s = [] ∧ LoopEvals (process1Step T) bools st (.ok bools) st') ∨
    (Contradiction st' ∧
      ∃ s, LoopEvals (process1Step T) bools st (.error .retfalse) { st' with s := s })

theorem Work.run (T : Theories) (bools : List SExp) {X : Finset SExp} {st : ProverState}
    (h : Work st) (hb : Bound X st) : ∃ st', Steps st st' ∧ Ends T bools st st' := by
  obtain hs | hc | ⟨st₁, hs⟩ := h.cases
  · exact ⟨st, .refl, .inl ⟨hs, .done (evals_process1Step_nil T bools hs)⟩⟩
  · obtain ⟨s, he⟩ := h.evals_contradiction T bools hc
    exact ⟨st, .refl, .inr ⟨hc, s, .throw he⟩⟩
  · obtain ⟨st', hss, ⟨hn, he⟩ | ⟨hc, s, he⟩⟩ := Work.run T bools (h.step hs) (hb.step h hs)
    · exact ⟨st', .head hs hss, .inl ⟨hn, .step (h.evals_step T bools hs) he⟩⟩
    · exact ⟨st', .head hs hss, .inr ⟨hc, s, .step (h.evals_step T bools hs) he⟩⟩
termination_by (X.card - st.findalist.length, st.s.length)
decreasing_by
  have hle := length_le_card (h.step hs).tables.wf fun p hp => ((hb.step h hs).links p hp).1
  obtain ⟨e, hlt⟩ | e := hs.length
  · rw [e]
    exact Prod.Lex.right _ hlt
  · exact Prod.Lex.left _ _ (by omega)

end

end PVS.GroundProver
