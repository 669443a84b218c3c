import PVS.Library.UnionFind
import PVS.GroundProver.Ground

/-! `pr-merge` on ground terms as a function of the state, and that the code computes it. -/

namespace PVS.GroundProver

open Library SExp UnionFind

def root (st : ProverState) (v : SExp) : SExp := rep st.findalist v

def Registered (st : ProverState) (u : SExp) : Prop := ∃ p ∈ st.usealist, u ∈ p.2

/-- A constant or an entry of some use list. -/
def NodeIn (st : ProverState) (v : SExp) : Prop :=
  (∃ n, Constant n ∧ v = .sym n) ∨ Registered st v

/-- What `pr-merge` needs of the three association lists. -/
structure Tables (st : ProverState) : Prop where
  types : st.typealist = primtypealist
  wf : WF st.findalist
  entries : ∀ u, Registered st u → Entry u
  nodes : ∀ p ∈ st.findalist, NodeIn st p.1 ∧ NodeIn st p.2 ∧ ¬ IsPair p.1 ∧ ¬ IsPair p.2
  args : ∀ u, Registered st u → ∀ a ∈ u.argsof.toList, NodeIn st a
  keys : ∀ p ∈ st.sigalist, Registered st p.1
  signs : ∀ u, Registered st u → Sign (sig st u) ∧ (sig st u).funsym = u.funsym ∧
    (sig st u).argsof.toList.map (root st) = u.argsof.toList.map (root st) ∧
    ∀ a ∈ (sig st u).argsof.toList, NodeIn st a

section

variable {st : ProverState} {u v : SExp}

theorem registered_of_use (h : u ∈ use st v) : Registered st u := by
  unfold use at h
  cases hl : st.usealist.lookup v with
  | none => simp [hl] at h
  | some l =>
    have hm : (v, l) ∈ st.usealist := by
      obtain ⟨l₁, l₂, e, _⟩ := List.lookup_eq_some_iff.1 hl
      simp [e]
    exact ⟨_, hm, by simpa [hl] using h⟩

theorem Tables.node (h : Tables st) (hv : NodeIn st v) : Node v := by
  obtain ⟨n, hn, rfl⟩ | hv := hv
  · exact .inl (.const hn)
  · exact .inr (h.entries v hv)

theorem Tables.nodeIn_root (h : Tables st) (hv : NodeIn st v) : NodeIn st (root st v) := by
  obtain e | ⟨p, hp, e⟩ := rep_eq_self_or_mem st.findalist v
  · rwa [root, e]
  · rw [root, ← e]
    exact (h.nodes p hp).2.1

theorem Tables.find1_eq_nil_iff (h : Tables st) : find1 st v = nil ↔ root st v = v := by
  rw [root, ← lookup_eq_none_iff h.wf v, find1]
  cases hl : st.findalist.lookup v with
  | none => simp
  | some w =>
    obtain ⟨l₁, l₂, e, _⟩ := List.lookup_eq_some_iff.1 hl
    simpa using (h.node (h.nodes (v, w) (by simp [e])).2.1).ne_nil

theorem Tables.root_root (h : Tables st) (v : SExp) : root st (root st v) = root st v :=
  rep_rep h.wf v

theorem Tables.root_isPair (h : Tables st) (hv : IsPair v) : root st v = v := by
  rw [root, ← lookup_eq_none_iff h.wf v, List.lookup_eq_none_iff]
  intro p hp
  have := (h.nodes p hp).2.2.1
  rw [bne_iff_ne]
  rintro rfl
  exact this hv

theorem Tables.isPair_root (h : Tables st) : IsPair (root st v) ↔ IsPair v := by
  refine ⟨fun hp => ?_, fun hp => by rwa [h.root_isPair hp]⟩
  obtain e | ⟨p, hp', e⟩ := rep_eq_self_or_mem st.findalist v
  · rwa [root, e] at hp
  · rw [root, ← e] at hp
    exact absurd hp (h.nodes p hp').2.2.2

theorem Tables.evals_prFind (h : Tables st) (v : SExp) :
    Evals (prFind v) st (.ok (root st v)) st := by
  apply LoopEvals.evals
  refine path_induction h.wf (P := fun v => LoopEvals _ v st (.ok (root st v)) st)
    (fun v hv => ?_) (fun v w hv hw => ?_) v
  · have hr : root st v = v := (lookup_eq_none_iff h.wf v).1 hv
    have hn : find1 st v = nil := h.find1_eq_nil_iff.2 hr
    rw [hr]
    exact .done (.bind (evals_get st) (by rw [if_pos hn]; exact evals_pure _ _))
  · have hn : find1 st v = w := by simp [find1, hv]
    have hne : w ≠ nil := by
      obtain ⟨l₁, l₂, e, _⟩ := List.lookup_eq_some_iff.1 hv
      exact (h.node (h.nodes (v, w) (by simp [e])).2.1).ne_nil
    rw [root, ← rep_of_lookup h.wf hv]
    exact .step (.bind (evals_get st) (by rw [hn, if_neg hne]; exact evals_pure _ _)) hw

end

/-! ### The state after a merge -/

/-- The atom `solve` makes of an equation between two nodes. -/
def eqAtom (l r : SExp) : SExp := solveEqual (equal l r)

def collide (u newsig t2 v : SExp) (st : ProverState) : ProverState :=
  if newsig = sig st v ∧ u ≠ v then
    { st with
      s := eqAtom (root st u) (root st v) :: st.s
      dropped := if losesEntry st u newsig t2 then (v, u) :: st.dropped else st.dropped }
  else st

def collideAll (u newsig t2 : SExp) (use2 : List SExp) (st : ProverState) : ProverState :=
  use2.foldl (fun st v => collide u newsig t2 v st) st

def signAs (u newsig : SExp) (st : ProverState) : ProverState :=
  { st with sigalist := (u, newsig) :: st.sigalist }

def mergeUseP (t1 t2 : SExp) (st : ProverState) (u : SExp) : ProverState :=
  let newsig := newSignature st u t1 t2
  let st₁ := signAs u newsig st
  let st₂ := collideAll u newsig t2 (use st t2) st₁
  { st₂ with
    usealist := (t2, u :: (use st t2).filter fun v => newsig ≠ sig st₁ v) :: st₂.usealist }

def link (t1 t2 : SExp) (st : ProverState) : ProverState :=
  { st with findalist := (t1, t2) :: st.findalist }

def prMergeP (l r : SExp) (st : ProverState) : ProverState :=
  if root st l = root st r then st
  else (use st (root st l)).foldl (mergeUseP (root st l) (root st r))
    (link (root st l) (root st r) st)

/-- `collideAll` touches nothing but `s` and the history variable. -/
theorem collideAll_frame (u newsig t2 : SExp) (use2 : List SExp) (st : ProverState) :
    ∃ s d, collideAll u newsig t2 use2 st = { st with s := s, dropped := d } := by
  induction use2 generalizing st with
  | nil => exact ⟨st.s, st.dropped, rfl⟩
  | cons v use2 ih =>
    obtain ⟨s, d, e⟩ := ih (collide u newsig t2 v st)
    refine ⟨s, d, ?_⟩
    rw [collideAll, List.foldl_cons]
    refine e.trans ?_
    unfold collide
    split <;> rfl

theorem mem_collideAll_s {u newsig t2 : SExp} {use2 : List SExp} {st : ProverState} {a : SExp} :
    a ∈ (collideAll u newsig t2 use2 st).s ↔ a ∈ st.s ∨
      ∃ v ∈ use2, newsig = sig st v ∧ u ≠ v ∧ a = eqAtom (root st u) (root st v) := by
  induction use2 generalizing st with
  | nil => simp [collideAll]
  | cons v use2 ih =>
    have e : collideAll u newsig t2 (v :: use2) st =
      collideAll u newsig t2 use2 (collide u newsig t2 v st) := rfl
    rw [e, ih]
    unfold collide
    by_cases h : newsig = sig st v ∧ u ≠ v
    · rw [if_pos h]
      simp only [List.mem_cons, sig, root] at h ⊢
      constructor
      · rintro ((rfl | ha) | ⟨w, hw, hs⟩)
        · exact .inr ⟨v, .inl rfl, h.1, h.2, rfl⟩
        · exact .inl ha
        · exact .inr ⟨w, .inr hw, hs⟩
      · rintro (ha | ⟨w, rfl | hw, hs⟩)
        · exact .inl (.inr ha)
        · exact .inl (.inl hs.2.2)
        · exact .inr ⟨w, hw, hs⟩
    · rw [if_neg h]
      simp only [List.mem_cons]
      constructor
      · rintro (ha | ⟨w, hw, hs⟩)
        · exact .inl ha
        · exact .inr ⟨w, .inr hw, hs⟩
      · rintro (ha | ⟨w, rfl | hw, hs⟩)
        · exact .inl ha
        · exact absurd ⟨hs.1, hs.2.1⟩ h
        · exact .inr ⟨w, hw, hs⟩

theorem collideAll_dropped {u newsig t2 : SExp} {use2 : List SExp} {st : ProverState}
    (h : (collideAll u newsig t2 use2 st).dropped = []) : st.dropped = [] ∧
      ∀ v ∈ use2, newsig = sig st v → u ≠ v → losesEntry st u newsig t2 = false := by
  induction use2 generalizing st with
  | nil => exact ⟨h, by simp⟩
  | cons v use2 ih =>
    have e : collideAll u newsig t2 (v :: use2) st =
      collideAll u newsig t2 use2 (collide u newsig t2 v st) := rfl
    obtain ⟨hd, hall⟩ := ih (e ▸ h)
    unfold collide at hd hall
    by_cases hc : newsig = sig st v ∧ u ≠ v
    · simp only [if_pos hc] at hd hall
      cases hl : losesEntry st u newsig t2 with
      | true => simp [hl] at hd
      | false =>
        exact ⟨by simpa [hl] using hd, fun w hw hs hne => rfl⟩
    · simp only [if_neg hc] at hd hall
      refine ⟨hd, fun w hw hs hne => ?_⟩
      obtain rfl | hw := List.mem_cons.1 hw
      · exact absurd ⟨hs, hne⟩ hc
      · exact hall w hw hs hne

/-! ### The code computes it -/

section

variable (T : Theories) {st : ProverState} {u v : SExp}

theorem Tables.atfType (h : Tables st) {l r : SExp} (hl : Node l) (hr : Node r) :
    atfType st (equal l r) = nil ∨ atfType st (equal l r) = .sym "functional" ∨
      atfType st (equal l r) = .sym "bool" := by
  simp only [GroundProver.atfType, h.types]
  obtain h₁ | h₁ := hl.prtype <;> obtain h₂ | h₂ := hr.prtype <;> simp [h₁, h₂, nil]

theorem Tables.evals_solve (h : Tables st) {l r : SExp} (hl : Node l) (hr : Node r) :
    Evals (solve T (equal l r)) st (.ok [eqAtom l r]) st := by
  have hty := h.atfType hl hr
  have e₁ : memq (.sym "equal") ifops = false := by decide
  have e₂ : memq (.sym "equal") arithrels = false := by decide
  unfold solve
  simp only [e₁, e₂, Bool.false_eq_true, if_false]
  exact .bind (evals_get st) (by rw [if_pos hty]; exact evals_pure _ _)

theorem eqAtom_cases {l r : SExp} (hl : Node l) (hr : Node r) :
    (l = r ∧ eqAtom l r = tt) ∨ eqAtom l r = equal l r ∨ (l = tt ∧ eqAtom l r = equal r tt) := by
  have h₁ : ¬ (r = ff ∧ isineq l = true) := by simp [hl.not_isineq]
  have h₂ : ¬ (l = ff ∧ isineq r = true) := by simp [hr.not_isineq]
  change _ ∨ (if l = r then _ else if r = ff ∧ isineq l = true then _ else
    if l = ff ∧ isineq r = true then _ else if l = tt then _ else _) = _ ∨ _
  rw [if_neg h₁, if_neg h₂]
  by_cases e : l = r
  · exact .inl ⟨e, if_pos e⟩
  · rw [if_neg e]
    by_cases ht : l = tt
    · exact .inr (.inr ⟨ht, (if_neg e).trans ((if_neg h₁).trans ((if_neg h₂).trans (if_pos ht)))⟩)
    · exact .inr (.inl (if_neg ht))

theorem boundInequality_eqAtom {l r : SExp} (hl : Node l) (hr : Node r) :
    boundInequality (eqAtom l r) = false := by
  obtain ⟨_, e⟩ | e | ⟨_, e⟩ := eqAtom_cases hl hr <;> rw [e] <;> rfl

theorem add2pot_eqAtom {l r : SExp} (hl : Node l) (hr : Node r) :
    Evals (add2pot T [eqAtom l r]) st (.ok ⟨⟩) { st with s := eqAtom l r :: st.s } := by
  have e : (fun st : ProverState => { st with s := [eqAtom l r].foldr (fun a s =>
      if boundInequality a && T.subsumedIneqList a s then s else a :: s) st.s }) =
      fun st => { st with s := eqAtom l r :: st.s } := by
    funext st
    simp [boundInequality_eqAtom hl hr]
  unfold add2pot
  rw [e]
  exact evals_modify _ _

theorem Tables.of_frame (h : Tables st) (s : List SExp) (d : List (SExp × SExp)) :
    Tables { st with s := s, dropped := d } := 
  ⟨h.types, h.wf, h.entries, h.nodes, h.args, h.keys, h.signs⟩

theorem Tables.node_root (h : Tables st) (hu : Registered st u) : Node (root st u) :=
  h.node (h.nodeIn_root (.inr hu))

theorem Tables.evals_equate (h : Tables st) {newsig t2 : SExp} (hu : Registered st u)
    (hv : Registered st v) (hs : newsig = sig st v) (hne : u ≠ v) :
    Evals (equate T u newsig t2 v) st (.ok ⟨⟩) (collide u newsig t2 v st) := by
  have nu := h.node_root hu
  have nv := h.node_root hv
  have hp : (!(root st u).consp || uninterp (root st u) ||
      prtype st.typealist (root st u).funsym == .sym "bool") = true := by
    rw [nu.plain, Bool.true_or]
  refine .bind (h.evals_prFind u) (.bind (h.evals_prFind v) (.bind (h.evals_solve T nu nv) ?_))
  refine .bind (evals_get st) ?_
  simp only [hp, if_true]
  refine .bind (add2pot_eqAtom T nu nv) ?_
  have e : collide u newsig t2 v st =
      if losesEntry st u newsig t2 then
        { st with s := eqAtom (root st u) (root st v) :: st.s
                  dropped := (v, u) :: st.dropped }
      else { st with s := eqAtom (root st u) (root st v) :: st.s } := by
    rw [collide, if_pos ⟨hs, hne⟩]
    split <;> rfl
  rw [e]
  exact evals_modify _ _

theorem Tables.of_collide (h : Tables st) (newsig t2 : SExp) :
    Tables (collide u newsig t2 v st) := by
  unfold collide
  split
  · exact h.of_frame _ _
  · exact h

theorem Tables.evals_dropCongruent (h : Tables st) {newsig t2 : SExp} (hu : Registered st u)
    {use2 : List SExp} (hall : ∀ v ∈ use2, Registered st v) :
    Evals (dropCongruent T u newsig t2 use2) st
      (.ok (use2.filter fun v => newsig ≠ sig st v)) (collideAll u newsig t2 use2 st) := by
  induction use2 generalizing st with
  | nil => exact evals_pure _ _
  | cons v use2 ih =>
    have hv : Registered st v := hall v (by simp)
    have ih := ih (h.of_collide (u := u) (v := v) newsig t2)
      (by unfold collide; split <;> exact hu)
      (fun w hw => by
        have := hall w (by simp [hw])
        unfold collide
        split <;> exact this)
    have hsig : ∀ w, sig (collide u newsig t2 v st) w = sig st w := fun w => by
      unfold collide
      split <;> rfl
    simp only [hsig] at ih
    refine .bind (evals_get st) ?_
    by_cases hs : newsig = sig st v
    · rw [if_pos hs, List.filter_cons_of_neg (by simpa using hs)]
      by_cases hne : u = v
      · have ec : collide u newsig t2 v st = st := by
          simp [collide, hne]
        rw [if_neg (by simpa using hne), collideAll, List.foldl_cons, ec]
        rw [ec] at ih
        exact .bind (evals_pure _ _) ih
      · rw [if_pos hne]
        exact .bind (h.evals_equate T hu hv hs hne) ih
    · have ec : collide u newsig t2 v st = st := by simp [collide, hs]
      rw [if_neg hs, List.filter_cons_of_pos (by simpa using hs), collideAll, List.foldl_cons, ec]
      rw [ec] at ih
      exact .bind ih (evals_pure _ _)

/-! ### One round over the use list of `t1` -/

theorem mem_substArg {t1 t2 z : SExp} {l : List SExp} (h : z ∈ l.map (substArg t1 t2)) :
    z = t2 ∨ z ∈ l ∧ z ≠ t1 := by
  obtain ⟨a, ha, rfl⟩ := List.mem_map.1 h
  unfold substArg
  by_cases e : a = t1
  · exact .inl (if_pos e)
  · rw [if_neg e]
    exact .inr ⟨ha, e⟩

theorem mergeUseP_frame (t1 t2 : SExp) (st : ProverState) (u : SExp) :
    ∃ s d, mergeUseP t1 t2 st u = { st with
      sigalist := (u, newSignature st u t1 t2) :: st.sigalist
      usealist := (t2, u :: (use st t2).filter fun v =>
        newSignature st u t1 t2 ≠ sig (signAs u (newSignature st u t1 t2) st) v) :: st.usealist
      s := s, dropped := d } := by
  obtain ⟨s, d, e⟩ := collideAll_frame u (newSignature st u t1 t2) t2 (use st t2)
    (signAs u (newSignature st u t1 t2) st)
  exact ⟨s, d, by rw [mergeUseP, e]; rfl⟩

theorem sig_signAs (w newsig : SExp) :
    sig (signAs u newsig st) w = if w = u then newsig else sig st w := by
  by_cases e : w = u
  · rw [if_pos e, e, sig, signAs, lookup_cons_self]
    rfl
  · rw [if_neg e, sig, signAs, lookup_cons_ne e]
    rfl

theorem sig_mergeUseP (t1 t2 w : SExp) :
    sig (mergeUseP t1 t2 st u) w = if w = u then newSignature st u t1 t2 else sig st w := by
  obtain ⟨s, d, e⟩ := mergeUseP_frame t1 t2 st u
  rw [e]
  exact sig_signAs w _

theorem use_mergeUseP_self (t1 t2 : SExp) : use (mergeUseP t1 t2 st u) t2 =
    u :: (use st t2).filter fun v =>
      newSignature st u t1 t2 ≠ sig (signAs u (newSignature st u t1 t2) st) v := by
  obtain ⟨s, d, e⟩ := mergeUseP_frame t1 t2 st u
  rw [e, use, lookup_cons_self]
  rfl

theorem use_mergeUseP_ne (t1 : SExp) {t2 z : SExp} (h : z ≠ t2) :
    use (mergeUseP t1 t2 st u) z = use st z := by
  obtain ⟨s, d, e⟩ := mergeUseP_frame t1 t2 st u
  rw [e, use, lookup_cons_ne h]
  rfl

theorem registered_mergeUseP {t1 t2 w : SExp} (hu : Registered st u) :
    Registered (mergeUseP t1 t2 st u) w ↔ Registered st w := by
  obtain ⟨s, d, e⟩ := mergeUseP_frame t1 t2 st u
  rw [e]
  constructor
  · rintro ⟨p, hp, hw⟩
    obtain rfl | hp := List.mem_cons.1 hp
    · obtain rfl | hw := List.mem_cons.1 hw
      · exact hu
      · exact registered_of_use (List.mem_filter.1 hw).1
    · exact ⟨p, hp, hw⟩
  · rintro ⟨p, hp, hw⟩
    exact ⟨p, List.mem_cons_of_mem _ hp, hw⟩

theorem nodeIn_mergeUseP {t1 t2 w : SExp} (hu : Registered st u) :
    NodeIn (mergeUseP t1 t2 st u) w ↔ NodeIn st w := by
  rw [NodeIn, NodeIn, registered_mergeUseP hu]

theorem root_mergeUseP (t1 t2 : SExp) : root (mergeUseP t1 t2 st u) = root st := by
  obtain ⟨s, d, e⟩ := mergeUseP_frame t1 t2 st u
  rw [e]
  rfl

theorem Tables.term (h : Tables st) (hv : NodeIn st v) (hp : ¬ IsPair v) : Term v := by
  obtain hv | hv := h.node hv
  · exact hv
  · cases hv with
    | app hf hn ha => exact .app hf hn ha
    | pair => exact absurd (by simp [IsPair]) hp

/-- The new signature of `u`, once `t1` is linked to `t2`. -/
theorem Tables.sign_newSignature (h : Tables st) (hu : Registered st u) {t1 t2 : SExp}
    (ht : NodeIn st t2) (hp : ¬ IsPair t2) (hr : root st t1 = root st t2) :
    Sign (newSignature st u t1 t2) ∧ (newSignature st u t1 t2).funsym = u.funsym ∧
      (newSignature st u t1 t2).argsof.toList.map (root st) = u.argsof.toList.map (root st) ∧
      ∀ a ∈ (newSignature st u t1 t2).argsof.toList, NodeIn st a := by
  obtain ⟨hs, hf, hm, hn⟩ := h.signs u hu
  have ha : (newSignature st u t1 t2).argsof.toList =
      (sig st u).argsof.toList.map (substArg t1 t2) := by simp [newSignature]
  refine ⟨⟨?_, ?_, ?_, ?_⟩, rfl, ?_, ?_⟩
  · exact hf ▸ hs.head
  · rw [ha]
    simpa using hs.ne
  · rw [ha]
    intro a hm
    obtain rfl | ⟨hm, _⟩ := mem_substArg hm
    · exact h.term ht hp
    · exact hs.terms a hm
  · rw [ha]
    rfl
  · rw [ha, ← hm, List.map_map]
    refine List.map_congr_left fun a _ => ?_
    by_cases e : a = t1
    · simp [substArg, e, hr]
    · simp [substArg, e]
  · rw [ha]
    intro a hm
    obtain rfl | ⟨hm, _⟩ := mem_substArg hm
    · exact ht
    · exact hn a hm

theorem Tables.of_mergeUseP (h : Tables st) (hu : Registered st u) {t1 t2 : SExp}
    (ht : NodeIn st t2) (hp : ¬ IsPair t2) (hr : root st t1 = root st t2) :
    Tables (mergeUseP t1 t2 st u) := by
  obtain ⟨s, d, e⟩ := mergeUseP_frame t1 t2 st u
  have hf : (mergeUseP t1 t2 st u).findalist = st.findalist := by rw [e]
  refine ⟨by rw [e]; exact h.types, hf ▸ h.wf, fun w hw => ?_, fun p hp => ?_, fun w hw a ha => ?_,
    fun p hp => ?_, fun w hw => ?_⟩
  · exact h.entries w ((registered_mergeUseP hu).1 hw)
  · simpa only [nodeIn_mergeUseP hu] using h.nodes p (hf ▸ hp)
  · exact (nodeIn_mergeUseP hu).2 (h.args w ((registered_mergeUseP hu).1 hw) a ha)
  · rw [e] at hp
    refine (registered_mergeUseP hu).2 ?_
    obtain rfl | hp := List.mem_cons.1 hp
    · exact hu
    · exact h.keys p hp
  · simp only [root_mergeUseP, nodeIn_mergeUseP hu, sig_mergeUseP]
    by_cases e : w = u
    · rw [if_pos e, e]
      exact h.sign_newSignature hu ht hp hr
    · rw [if_neg e]
      exact h.signs w ((registered_mergeUseP hu).1 hw)

theorem Tables.of_signAs (h : Tables st) (hu : Registered st u) {newsig : SExp}
    (hs : Sign newsig ∧ newsig.funsym = u.funsym ∧
      newsig.argsof.toList.map (root st) = u.argsof.toList.map (root st) ∧
      ∀ a ∈ newsig.argsof.toList, NodeIn st a) : Tables (signAs u newsig st) := by
  refine ⟨h.types, h.wf, h.entries, h.nodes, h.args, fun p hp => ?_, fun w hw => ?_⟩
  · obtain rfl | hp := List.mem_cons.1 hp
    · exact hu
    · exact h.keys p hp
  · rw [sig_signAs]
    by_cases e : w = u
    · rw [if_pos e, e]
      exact hs
    · rw [if_neg e]
      exact h.signs w hw

theorem Tables.evals_mergeUse (h : Tables st) (hu : Registered st u) {t1 t2 : SExp}
    (ht : NodeIn st t2) (hp : ¬ IsPair t2) (hr : root st t1 = root st t2) :
    Evals (mergeUse T t1 t2 false u) st (.ok ⟨⟩) (mergeUseP t1 t2 st u) := by
  have hn := h.sign_newSignature hu ht hp hr
  have hq : u.funsym ≠ .sym "QUO" := (h.entries u hu).sign.head.ne (by decide)
  have hi : uninterp (newSignature st u t1 t2) = true := hn.1.uninterp
  unfold mergeUse
  rw [if_pos hq]
  refine .bind (evals_get st) ?_
  simp only [Bool.false_and, Bool.false_eq_true, if_false, hi, if_true]
  refine .bind (evals_get st) (.bind (evals_modify _ _) (.bind (evals_get _) ?_))
  have hd : Evals (dropCongruent T u (newSignature st u t1 t2) t2 (use st t2)) _ _ _ :=
    (h.of_signAs hu hn).evals_dropCongruent T hu fun v hv => registered_of_use hv
  exact .bind hd (evals_modify _ _)

/-! ### The whole merge -/

theorem Tables.of_link (h : Tables st) {t1 t2 : SExp} (h1 : NodeIn st t1) (h2 : NodeIn st t2)
    (p1 : ¬ IsPair t1) (p2 : ¬ IsPair t2) (r1 : root st t1 = t1) (r2 : root st t2 = t2)
    (hne : t1 ≠ t2) : Tables (link t1 t2 st) := by
  refine ⟨h.types, ⟨r1, r2, hne, h.wf⟩, h.entries, fun p hp => ?_, h.args, h.keys,
    fun w hw => ?_⟩
  · obtain rfl | hp := List.mem_cons.1 hp
    · exact ⟨h1, h2, p1, p2⟩
    · exact h.nodes p hp
  · obtain ⟨hs, hf, hm, hn⟩ := h.signs w hw
    refine ⟨hs, hf, ?_, hn⟩
    have e : root (link t1 t2 st) =
        (fun v => if v = t1 then t2 else v) ∘ root st := rfl
    rw [e, ← List.map_map, ← List.map_map]
    exact congrArg _ hm

theorem Tables.merge (h : Tables st) {l r : SExp} (hl : NodeIn st l) (hr : NodeIn st r)
    (pl : ¬ IsPair l) (pr : ¬ IsPair r) (hne : root st l ≠ root st r) :
    Tables (link (root st l) (root st r) st) :=
  h.of_link (h.nodeIn_root hl) (h.nodeIn_root hr) (fun p => pl (h.isPair_root.1 p))
    (fun p => pr (h.isPair_root.1 p)) (h.root_root l) (h.root_root r) hne

/-- What every round over the use list of `t1` finds. -/
structure Linked (t1 t2 : SExp) (st : ProverState) : Prop where
  tables : Tables st
  node : NodeIn st t2
  plain : ¬ IsPair t2
  eq : root st t1 = t2

theorem Linked.root_eq {t1 t2 : SExp} (h : Linked t1 t2 st) : root st t1 = root st t2 :=
  calc root st t1 = root st (root st t1) := (h.tables.root_root t1).symm
    _ = root st t2 := by rw [h.eq]

theorem Linked.of_mergeUseP {t1 t2 : SExp} (h : Linked t1 t2 st) (hu : Registered st u) :
    Linked t1 t2 (mergeUseP t1 t2 st u) :=
  ⟨h.tables.of_mergeUseP hu h.node h.plain h.root_eq, (nodeIn_mergeUseP hu).2 h.node, h.plain, by
    rw [root_mergeUseP]
    exact h.eq⟩

theorem Tables.linked (h : Tables st) {l r : SExp} (hl : NodeIn st l) (hr : NodeIn st r)
    (pl : ¬ IsPair l) (pr : ¬ IsPair r) (hne : root st l ≠ root st r) :
    Linked (root st l) (root st r) (link (root st l) (root st r) st) := by
  refine ⟨h.merge hl hr pl pr hne, h.nodeIn_root hr, fun p => pr (h.isPair_root.1 p), ?_⟩
  exact if_pos (h.root_root l)

theorem prMergeP_of_eq {l r : SExp} (h : root st l = root st r) : prMergeP l r st = st := if_pos h

/-- Induction over the rounds of a merge. -/
theorem Tables.prMergeP_induction (h : Tables st) {l r : SExp} (hl : NodeIn st l)
    (hr : NodeIn st r) (pl : ¬ IsPair l) (pr : ¬ IsPair r) (hne : root st l ≠ root st r)
    {P : ProverState → Prop} (base : P (link (root st l) (root st r) st))
    (round : ∀ st' u, Linked (root st l) (root st r) st' → Registered st' u → P st' →
      P (mergeUseP (root st l) (root st r) st' u)) :
    Linked (root st l) (root st r) (prMergeP l r st) ∧ P (prMergeP l r st) := by
  have key : (Linked (root st l) (root st r) (prMergeP l r st) ∧
      ∀ u ∈ use st (root st l), Registered (prMergeP l r st) u) ∧ P (prMergeP l r st) := by
    rw [prMergeP, if_neg hne]
    refine List.foldlRecOn (motive := fun st' => (Linked (root st l) (root st r) st' ∧
      ∀ u ∈ use st (root st l), Registered st' u) ∧ P st') _ _
      ⟨⟨h.linked hl hr pl pr hne, fun u hu => registered_of_use hu⟩, base⟩ fun st' hi u hu => ?_
    have hu' := hi.1.2 u hu
    exact ⟨⟨hi.1.1.of_mergeUseP hu', fun w hw => (registered_mergeUseP hu').2 (hi.1.2 w hw)⟩,
      round st' u hi.1.1 hu' hi.2⟩
  exact ⟨key.1.1, key.2⟩

theorem Tables.evals_prMerge (h : Tables st) {l r : SExp} (hl : NodeIn st l) (hr : NodeIn st r)
    (hp : root st l = root st r ∨ (¬ IsPair l ∧ ¬ IsPair r)) :
    Evals (prMerge T l r) st (.ok ⟨⟩) (prMergeP l r st) := by
  refine .bind (h.evals_prFind l) (.bind (h.evals_prFind r) ?_)
  by_cases e : root st l = root st r
  · rw [if_pos e, prMergeP_of_eq e]
    exact evals_pure _ _
  · obtain ⟨pl, pr⟩ := hp.resolve_left e
    have n1 := h.node (h.nodeIn_root hl)
    have n2 := h.node (h.nodeIn_root hr)
    have p1 : ¬ (root st l).car.consp = true := fun p => pl (h.isPair_root.1 p)
    rw [if_neg e, prMergeP, if_neg e]
    simp only [n1.not_integerp, Bool.false_and, Bool.false_eq_true, if_false, p1, Bool.and_false,
      n1.not_isLambdaExpr, n2.not_isLambdaExpr, Bool.or_self]
    refine .bind (evals_modify _ _) (.bind (evals_get _) ?_)
    rw [timesOrUse, n1.not_times]
    exact (Evals.forM (I := fun st' => Linked (root st l) (root st r) st' ∧
        ∀ u ∈ use st (root st l), Registered st' u)
      (fun u hu st' hi => ⟨hi.1.tables.evals_mergeUse T (hi.2 u hu) hi.1.node hi.1.plain hi.1.root_eq,
        hi.1.of_mergeUseP (hi.2 u hu),
        fun w hw => (registered_mergeUseP (hi.2 u hu)).2 (hi.2 w hw)⟩)
      ⟨h.linked hl hr pl pr e, fun u hu => registered_of_use hu⟩).1

/-- Two pairs with different roots that are to be equated were known to be different. -/
theorem Tables.evals_prMerge_pair (h : Tables st) {l r : SExp} (pl : IsPair l)
    (hne : root st l ≠ root st r) : Evals (prMerge T l r) st (.error .retfalse) st := by
  refine .bind (h.evals_prFind l) (.bind (h.evals_prFind r) ?_)
  have hp : IsPair (root st l) := h.isPair_root.2 pl
  have hc : (root st l).consp = true ∧ (root st l).integerp = false := by
    cases hv : root st l with
    | cons a d => exact ⟨rfl, rfl⟩
    | sym n => simp [hv, IsPair, car, nil] at hp
    | int i => simp [hv, IsPair, car, nil] at hp
  have hp : (root st l).car.consp = true := hp
  rw [if_neg hne]
  simp only [hc.1, hc.2, hp, Bool.false_and, Bool.false_eq_true, if_false, Bool.and_self, if_true]
  exact evals_throw _ _

end

end PVS.GroundProver
