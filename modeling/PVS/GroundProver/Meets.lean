import PVS.GroundProver.Process1

/-! Steps and models: a model meets the tables and the atoms still to be treated before a step iff
it does so after it, and a model built from the closed tables meets them. -/

namespace PVS.GroundProver

open Library SExp UnionFind

structure Model.Meets (M : Model) (st : ProverState) : Prop where
  links : ∀ p ∈ st.findalist, M.eval p.1 = M.eval p.2
  atoms : ∀ l r, equal l r ∈ st.s → M.eval l = M.eval r

/-- The stored disequalities hold in `M`. -/
def Model.Separates (M : Model) (st : ProverState) : Prop :=
  ∀ a b x, Registered st (ofList [.cons a b, x]) → M.eval a ≠ M.eval b

section

variable {M : Model} {st st' : ProverState} {u v a b : SExp}

theorem Model.eval_root (h : ∀ p ∈ st.findalist, M.eval p.1 = M.eval p.2) (v : SExp) :
    M.eval (root st v) = M.eval v :=
  (rep_rel (R := fun u v => M.eval u = M.eval v) (fun _ => rfl) (fun h h' => h.trans h') h v).symm

theorem Sign.eval_congr (hu : Sign u) (hv : Sign v) (hf : u.funsym = v.funsym)
    (ha : u.argsof.toList.map M.eval = v.argsof.toList.map M.eval) : M.eval u = M.eval v := by
  obtain ⟨x, xs, hx⟩ := List.exists_cons_of_ne_nil hu.ne
  obtain ⟨y, ys, hy⟩ := List.exists_cons_of_ne_nil hv.ne
  have hh := hv.head
  rw [hu.eq, hv.eq, hf]
  rw [hx, hy] at ha ⊢
  generalize v.funsym = f at hh
  cases hh with
  | fn => simp only [Model.eval, Model.evalArgs_ofList, ha]
  | pair => simpa [Model.eval] using And.left (by simpa using ha)

theorem Tables.eval_sig (h : Tables st) (hM : ∀ p ∈ st.findalist, M.eval p.1 = M.eval p.2)
    (hu : Registered st u) : M.eval (sig st u) = M.eval u := by
  obtain ⟨hs, hf, hm, _⟩ := h.signs u hu
  have e : M.eval ∘ root st = M.eval := funext (Model.eval_root hM)
  refine hs.eval_congr (h.entries u hu).sign hf ?_
  rw [← e, ← List.map_map, hm, List.map_map]

/-- Entries that a merge equates have the same value. -/
theorem Linked.eval_eq (h : Linked a b st) (hM : ∀ p ∈ st.findalist, M.eval p.1 = M.eval p.2)
    (hu : Registered st u) (hv : Registered st v) (hs : newSignature st u a b = sig st v)
    (hne : u ≠ v) : M.eval u = M.eval v := by
  have ht : Tables (signAs u (newSignature st u a b) st) :=
    h.tables.of_signAs hu (h.tables.sign_newSignature hu h.node h.plain h.root_eq)
  have eu := ht.eval_sig hM hu
  have ev := ht.eval_sig hM hv
  rw [sig_signAs, if_pos rfl, hs] at eu
  rw [sig_signAs, if_neg hne.symm] at ev
  exact eu.symm.trans ev

theorem Model.Meets.of_mergeUseP (h : M.Meets st) (hl : Linked a b st) (hu : Registered st u) :
    M.Meets (mergeUseP a b st u) := by
  refine ⟨fun p hp => h.links p (findalist_mergeUseP ▸ hp), fun l r hm => ?_⟩
  obtain hm | ⟨v, hv, hs, hne, e⟩ := mem_s_mergeUseP_iff.1 hm
  · exact h.atoms l r hm
  · have hv := registered_of_use hv
    have he : M.eval (root st u) = M.eval (root st v) := by
      rw [M.eval_root h.links, M.eval_root h.links]
      exact hl.eval_eq h.links hu hv hs hne
    obtain ⟨_, e'⟩ | e' | ⟨ht, e'⟩ :=
      eqAtom_cases (hl.tables.node_root hu) (hl.tables.node_root hv)
    · simp [e'] at e
    · obtain ⟨rfl, rfl⟩ : l = root st u ∧ r = root st v := by simpa [e'] using e
      exact he
    · obtain ⟨rfl, rfl⟩ : l = root st v ∧ r = tt := by simpa [e'] using e
      exact ht ▸ he.symm

theorem Work.meets_step (h : Work st) (hs : Step st st') (hM : M.Meets st) : M.Meets st' := by
  refine h.step_induction hs (fun x s hx _ => ?_) (fun l r s hx _ _ _ _ => ?_)
    fun a b st u hl hu hM => hM.of_mergeUseP hl hu
  · exact ⟨hM.links, fun l r hm => hM.atoms l r (by simp [hx, hm])⟩
  · refine ⟨fun p hp => ?_, fun l r hm => hM.atoms l r (hx ▸ List.mem_cons_of_mem _ hm)⟩
    obtain rfl | hp := List.mem_cons.1 hp
    · change M.eval (root st l) = M.eval (root st r)
      rw [M.eval_root hM.links, M.eval_root hM.links]
      exact hM.atoms l r (by simp [hx])
    · exact hM.links p hp

/-- A step loses no information. -/
theorem Work.meets_of_step (h : Work st) (hs : Step st st') : M.Meets st' → M.Meets st := by
  refine h.step_induction hs (P := fun st' => M.Meets st' → M.Meets st) (fun x s hx he hM => ?_)
    (fun l r s hx _ _ _ _ hM => ?_) fun a b st₁ u hl hu ih hM => ih ?_
  · refine ⟨hM.links, fun l r hm => ?_⟩
    obtain e | hm := List.mem_cons.1 (hx ▸ hm)
    · rw [← M.eval_root hM.links l, ← M.eval_root hM.links r]
      exact congrArg M.eval (he l r e.symm)
    · exact hM.atoms l r hm
  · have hl : ∀ p ∈ st.findalist, M.eval p.1 = M.eval p.2 :=
      fun p hp => hM.links p (List.mem_cons_of_mem _ hp)
    refine ⟨hl, fun l' r' hm => ?_⟩
    obtain e | hm := List.mem_cons.1 (hx ▸ hm)
    · obtain ⟨rfl, rfl⟩ : l' = l ∧ r' = r := by simpa using e
      rw [← M.eval_root hl, ← M.eval_root hl r']
      exact hM.links (root st l', root st r') List.mem_cons_self
    · exact hM.atoms l' r' hm
  · exact ⟨fun p hp => hM.links p (by rwa [findalist_mergeUseP]),
      fun l r hm => hM.atoms l r (mem_s_mergeUseP hm)⟩

theorem Steps.meets_iff (hs : Steps st st') (h : Work st) : M.Meets st' ↔ M.Meets st := by
  induction hs with
  | refl => exact Iff.rfl
  | tail hss hs ih =>
    have hw := Steps.work hss h
    exact ⟨fun hM => ih.1 (hw.meets_of_step hs hM), fun hM => hw.meets_step hs (ih.2 hM)⟩

theorem Work.eval_ne_of_pairs (h : Work st) (hM : M.Separates st) {l r : SExp} (hl : Registered st l)
    (hr : Registered st r) (hp : IsPair l) (hc : l.car = r.car) (hne : l ≠ r) :
    M.eval l ≠ M.eval r := by
  cases h.tables.entries l hl with
  | app => simp [IsPair] at hp
  | @pair a b x ha hb hx =>
    cases h.tables.entries r hr with
    | app => simp at hc
    | @pair a' b' y ha' hb' hy =>
      obtain ⟨rfl, rfl⟩ : a = a' ∧ b = b' := by simpa using hc
      have hab := hM a b x hl
      simp only [ofList_cons, Model.eval]
      obtain rfl | rfl := hx <;> obtain rfl | rfl := hy
      · exact absurd rfl hne
      · exact hab
      · exact hab.symm
      · exact absurd rfl hne

theorem Work.not_contradiction (h : Work st) (hM : M.Meets st) (hM' : M.Separates st) :
    ¬ Contradiction st := by
  rintro ⟨l, r, s, hs, hp, hne⟩
  have hm : equal l r ∈ st.s := by simp [hs]
  obtain e | ⟨l', r', e, hl, hr, hc⟩ := h.atoms _ hm
  · simp at e
  · obtain ⟨rfl, rfl⟩ : l = l' ∧ r = r' := by simpa using e
    have hc := hc (.inl hp)
    have hr' : IsPair r := (IsPair.congr hc).1 hp
    have reg : ∀ {v}, NodeIn st v → IsPair v → Registered st v := fun hv hp => by
      obtain ⟨n, _, rfl⟩ | hv := hv
      · simp [IsPair, car, nil] at hp
      · exact hv
    refine h.eval_ne_of_pairs hM' (reg hl hp) (reg hr hr') hp hc ?_ (hM.atoms l r hm)
    rintro rfl
    exact hne rfl

/-! ### The model of closed tables -/

open Classical in
/-- Values are roots; an application that has no entry is a value of its own. -/
noncomputable def tableFn (st : ProverState) (f : String) (ds : List SExp) : SExp :=
  if ds = [] then root st (.sym f)
  else if h : ∃ u, Registered st u ∧ csig st u = form f ds then root st h.choose
  else form f ds

noncomputable def tableModel (st : ProverState) : Model := ⟨SExp, tableFn st⟩

theorem Joined.root_eq (hs : st.s = []) (h : Joined st u v) : root st u = root st v := by
  induction h with
  | rel x y hxy => simpa [hs] using hxy
  | refl => rfl
  | symm x y _ ih => exact ih.symm
  | trans x y z _ _ ih₁ ih₂ => exact ih₁.trans ih₂

theorem Closed.root_eq (h : Closed st) (hs : st.s = []) (hu : Registered st u)
    (hv : Registered st v) (e : csig st u = csig st v) : root st u = root st v :=
  (h.cong u v hu hv e).root_eq hs

theorem NodeIn.registered (h : NodeIn st v) (hc : v.consp) : Registered st v := by
  obtain ⟨n, _, rfl⟩ | h := h
  · simp at hc
  · exact h

theorem Closed.eval_eq_root (h : Closed st) (hs : st.s = []) (ht : Tables st) (hv : Term v)
    (hn : NodeIn st v) : (tableModel st).eval v = root st v := by
  induction hv with
  | @const n =>
    have e : tableFn st n [] = root st (.sym n) := if_pos rfl
    exact e
  | @app f args hf hne ha ih =>
    have hu := hn.registered rfl
    have e : args.map (tableModel st).eval = args.map (root st) :=
      List.map_congr_left fun a ha => ih a ha (ht.args _ hu a (by simpa using ha))
    have hc : csig st (.cons (.sym f) (ofList args)) = form f (args.map (root st)) := by
      simp [csig]
    have hex : ∃ u, Registered st u ∧ csig st u = form f (args.map (root st)) := ⟨_, hu, hc⟩
    have hd : args.map (root st) ≠ [] := by simpa using hne
    have ev : tableFn st f (args.map (root st)) = root st hex.choose :=
      (if_neg hd).trans (dif_pos hex)
    obtain ⟨hr, hc'⟩ := hex.choose_spec
    rw [Model.eval, Model.evalArgs_ofList, e]
    refine ev.trans ?_
    exact h.root_eq hs hr hu (hc'.trans hc.symm)

theorem Closed.meets (h : Closed st) (hs : st.s = []) (ht : Tables st) :
    (tableModel st).Meets st := by
  refine ⟨fun p hp => ?_, fun l r hm => by simp [hs] at hm⟩
  obtain ⟨h1, h2, p1, p2⟩ := ht.nodes p hp
  rw [h.eval_eq_root hs ht (ht.term h1 p1) h1, h.eval_eq_root hs ht (ht.term h2 p2) h2]
  exact rep_of_mem ht.wf hp

/-- A disequality is stored with both of its sides, which are different terms. -/
def Paired (st : ProverState) : Prop := ∀ a b x, Registered st (ofList [.cons a b, x]) →
  a ≠ b ∧ Registered st (ofList [.cons a b, a]) ∧ Registered st (ofList [.cons a b, b])

theorem Tables.term_of_pair (h : Tables st) {x : SExp}
    (hr : Registered st (ofList [.cons a b, x])) : Term a ∧ Term b := by
  have he := h.entries _ hr
  generalize e : ofList [SExp.cons a b, x] = u at he
  cases he with
  | app => simp at e
  | @pair a' b' x' ha hb =>
    obtain ⟨⟨rfl, rfl⟩, _⟩ : (a = a' ∧ b = b') ∧ x = x' := by simpa using e
    exact ⟨ha, hb⟩

theorem Closed.separates (h : Closed st) (hs : st.s = []) (ht : Tables st) (hp : Paired st) :
    (tableModel st).Separates st := by
  intro a b x hr he
  obtain ⟨hab, ra, rb⟩ := hp a b x hr
  obtain ⟨ta, tb⟩ := ht.term_of_pair hr
  rw [h.eval_eq_root hs ht ta (ht.args _ ra a (by simp)),
    h.eval_eq_root hs ht tb (ht.args _ rb b (by simp))] at he
  have e : root st (ofList [.cons a b, a]) = root st (ofList [.cons a b, b]) :=
    h.root_eq hs ra rb (by simp [csig, he])
  have hpair : ∀ y, IsPair (ofList [.cons a b, y]) := fun y => by simp [IsPair]
  rw [ht.root_isPair (hpair a), ht.root_isPair (hpair b)] at e
  exact hab (by simpa using e)

end

end PVS.GroundProver
