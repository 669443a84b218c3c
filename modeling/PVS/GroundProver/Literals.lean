import PVS.GroundProver.Canon

/-! `process` on equations and disequalities between ground terms. -/

namespace PVS.GroundProver

open Library SExp UnionFind

section

variable {st st' : ProverState} {u v a b l r : SExp}

theorem evals_bindS {α : Type} {m : ProverM α} {s : List SExp} {x : Except Signal α}
    (h : Evals m { st with s := s } x st') : Evals (bindS s m) st x { st' with s := st.s } :=
  Evals.within h

theorem evals_newcontext {m : ProverM SExp} {x : Except Signal SExp} (h : Evals m st x st')
    (ht : st'.typealist = st.typealist) (ha : st'.applysymlist = st.applysymlist)
    (hs : st'.s = st.s) :
    Evals (newcontext m) st (.ok (catchContext x)) st := by
  have e : { st' with sigalist := st.sigalist, findalist := st.findalist, usealist := st.usealist
                      dropped := st.dropped } = st := by
    rw [ht, ha, hs]
  have hw : Evals (newcontext m) st (.ok (catchContext x)) { st' with
      sigalist := st.sigalist, findalist := st.findalist, usealist := st.usealist
      dropped := st.dropped } := Evals.within h
  rwa [e] at hw

theorem AtRest.work (h : AtRest st) {x : SExp} (hx : Atom st x) : Work { st with s := [x] } := by
  refine ⟨h.tables.of_frame [x] st.dropped, fun y hy => ?_⟩
  obtain rfl : y = x := by simpa using hy
  exact hx

theorem Closed.push (h : Closed { st with s := [] }) (s : List SExp) :
    Closed { st with s := s } := by
  refine ⟨h.stale, fun u hu => ?_, fun u v hu hv e => ?_⟩
  · obtain ⟨y, hy⟩ := h.find u hu
    exact ⟨y, hy.sig, hy.use⟩
  · have e := (h.cong u v hu hv e).root_eq rfl
    exact .of_root e

theorem AtRest.of_steps (h : AtRest st) {x : SExp} (hx : Atom st x)
    (hs : Steps { st with s := [x] } st') (he : st'.s = []) (s : List SExp) :
    AtRest { st' with s := s } := by
  have hw := h.work hx
  have hr : ∀ u, Registered st' u ↔ Registered st u := fun u => hs.registered hw
  refine ⟨(hs.work hw).tables.of_frame s st'.dropped, fun a b x hx => ?_, fun hd => ?_⟩
  · obtain ⟨hab, ra, rb⟩ := h.paired a b x ((hr _).1 hx)
    exact ⟨hab, (hr _).2 ra, (hr _).2 rb⟩
  · have hc := hs.closed hw hd fun hd => (h.closed hd).push [x]
    have e : { st' with s := [] } = st' := by rw [← he]
    change Closed { st' with s := [] }
    rwa [e]

variable (T : Theories)

/-- The outcome of adding an atom to the context. -/
theorem AtRest.evals_process1 (h : AtRest st) {x : SExp} (hx : Atom st x) :
    ∃ st', Steps { st with s := [x] } st' ∧
      ((st'.s = [] ∧ Evals (process1 T [x]) st (.ok nil) { st' with s := st.s }) ∨
        (Contradiction st' ∧
          Evals (process1 T [x]) st (.error .retfalse) { st' with s := st.s })) := by
  have hw := h.work hx
  obtain ⟨X, hb⟩ := exists_bound { st with s := [x] }
  obtain ⟨st', hs, ⟨hn, he⟩ | ⟨hc, s, he⟩⟩ := hw.run T [] hb
  · exact ⟨st', hs, .inl ⟨hn, .bind (evals_bindS he.evals) (evals_pure _ _)⟩⟩
  · have e := evals_bindS he.evals
    exact ⟨st', hs, .inr ⟨hc, .bind_throw e⟩⟩

theorem atom_equal (hl : NodeIn st l) (hr : NodeIn st r) (tl : Term l) (tr : Term r) :
    Atom st (equal l r) :=
  .inr ⟨l, r, rfl, hl, hr, fun hp => absurd hp (by simp [tl.not_isPair, tr.not_isPair])⟩

theorem AtRest.evals_nsolveEqual (h : AtRest st) (hl : NodeIn st l) (hr : NodeIn st r)
    (tl : Term l) (tr : Term r) (hne : l ≠ r) :
    ∃ st', Steps { st with s := [equal l r] } st' ∧
      (Evals (nsolveEqual T (equal l r)) st (.ok (nequal l r)) st ∨
        (Contradiction st' ∧ Evals (nsolveEqual T (equal l r)) st (.ok tt) st)) := by
  have hx := atom_equal hl hr tl tr
  have hw := h.work hx
  obtain ⟨st', hs, ho⟩ := h.evals_process1 T hx
  have hty : st'.typealist = st.typealist :=
    (hs.work hw).tables.types.trans h.tables.types.symm
  have happ : st'.applysymlist = st.applysymlist := hs.applysymlist hw
  refine ⟨st', hs, ?_⟩
  have e : nsolveEqual T (equal l r) = newcontext (process1 T [equal l r]) >>= fun result =>
      if result = tt then retfalse
      else if result = ff then pure tt
      else pure (nequal l r) := if_neg hne
  rw [e]
  obtain ⟨_, he⟩ | ⟨hc, he⟩ := ho
  · refine .inl (.bind (evals_newcontext he hty happ rfl) ?_)
    exact evals_pure _ _
  · refine .inr ⟨hc, .bind (evals_newcontext he hty happ rfl) ?_⟩
    exact evals_pure _ _

/-! ### `addneq` -/

/-- One half of a stored disequality. -/
abbrev pairEntry (l r x : SExp) : SExp := ofList [.cons l r, x]

def storeNeq (l r : SExp) (st : ProverState) : ProverState :=
  register (pairEntry l r r) (register (pairEntry l r l) st)

theorem evals_addneq (ht : st.typealist = primtypealist) (tl : Term l) (tr : Term r) :
    Evals (addneq T (nequal l r)) st (.ok ⟨⟩) (storeNeq l r st) := by
  have hl : Entry (pairEntry l r l) := .pair tl tr (.inl rfl)
  have hr : Entry (pairEntry l r r) := .pair tl tr (.inr rfl)
  have hn : numberIneq st.typealist l r = false := by
    rw [ht, numberIneq]
    obtain h₁ | h₁ := Node.prtype (.inl tl) <;> obtain h₂ | h₂ := Node.prtype (.inl tr) <;>
      simp [h₁, h₂, nil]
  have hz : r ≠ .int 0 := by
    rintro rfl
    have := Node.not_integerp (.inl tr)
    simp [integerp] at this
  refine .bind (evals_get st) ?_
  simp only [lside_nequal, rside_nequal, hz, hn, Bool.false_eq_true, if_false]
  exact .bind (evals_adduse T hl l) (.bind (evals_adduse T hr r) (evals_pure _ _))

theorem storeNeq_s (l r : SExp) (st : ProverState) (s : List SExp) :
    storeNeq l r { st with s := s } = { storeNeq l r st with s := s } :=
  calc storeNeq l r { st with s := s }
      = register (pairEntry l r r) { register (pairEntry l r l) st with s := s } :=
        congrArg _ (register_s _ st s)
    _ = _ := register_s _ _ s

theorem s_storeNeq (l r : SExp) (st : ProverState) : (storeNeq l r st).s = st.s := by
  obtain ⟨ul, e⟩ := register_frame (pairEntry l r l) st
  obtain ⟨ul', e'⟩ := register_frame (pairEntry l r r) (register (pairEntry l r l) st)
  rw [storeNeq, e', e]

theorem evals_process1_nequal (ht : st.typealist = primtypealist) (tl : Term l) (tr : Term r) :
    Evals (process1 T [nequal l r]) st (.ok nil) (storeNeq l r st) := by
  have h₁ : Evals (process1Step T []) { st with s := [nequal l r] } (.ok (.inl []))
      (storeNeq l r { st with s := [] }) := by
    refine .bind (evals_get _) (.bind (evals_modify _ _) ?_)
    exact .bind (evals_addneq T ht tl tr) (evals_pure _ _)
  have h₂ : Evals (process1Step T []) (storeNeq l r { st with s := [] }) (.ok (.inr []))
      (storeNeq l r { st with s := [] }) :=
    evals_process1Step_nil T [] (s_storeNeq l r _)
  have h₃ := evals_bindS (LoopEvals.step h₁ (.done h₂)).evals
  have e : { storeNeq l r { st with s := [] } with s := st.s } = storeNeq l r st := by
    rw [storeNeq_s, ← s_storeNeq l r st]
  rw [e] at h₃
  exact .bind h₃ (evals_pure _ _)

theorem registered_storeNeq : Registered (storeNeq l r st) u ↔
    Registered st u ∨ u = pairEntry l r l ∨ u = pairEntry l r r := by
  rw [storeNeq, registered_register (by simp), registered_register (by simp), or_assoc]

/-- Between roots only a pair itself has its signature. -/
theorem Tables.eq_of_csig_pair (h : Tables st) {x : SExp} (hl : root st l = l) (hr : root st r = r)
    (hv : Registered st v) (e : csig st v = pairEntry l r x) : v = pairEntry l r x := by
  cases h.entries v hv with
  | app => simp [csig] at e
  | @pair a b y ha hb hy =>
    obtain ⟨⟨rfl, rfl⟩, rfl⟩ : (a = l ∧ b = r) ∧ root st y = x := by simpa [csig] using e
    obtain rfl | rfl := hy
    · rw [hl]
    · rw [hr]

theorem AtRest.storeNeq (h : AtRest st) (hl : NodeIn st l) (hr : NodeIn st r) (tl : Term l)
    (tr : Term r) (hne : l ≠ r) (hroot : st.dropped = [] → root st l = l ∧ root st r = r) :
    AtRest (storeNeq l r st) := by
  have el : Entry (pairEntry l r l) := .pair tl tr (.inl rfl)
  have er : Entry (pairEntry l r r) := .pair tl tr (.inr rfl)
  have hr' : NodeIn (register (pairEntry l r l) st) r :=
    hr.imp id fun h => (registered_register (by simp)).2 (.inl h)
  have ht := h.tables.of_register el (by simpa using hl)
  refine ⟨ht.of_register er (by simpa using hr'), fun a b x hx => ?_, fun hd => ?_⟩
  · simp only [registered_storeNeq] at hx ⊢
    obtain hx | hx | hx := hx
    · obtain ⟨hab, ra, rb⟩ := h.paired a b x hx
      exact ⟨hab, .inl ra, .inl rb⟩
    · obtain ⟨⟨rfl, rfl⟩, _⟩ : (a = l ∧ b = r) ∧ x = l := by simpa using hx
      exact ⟨hne, .inr (.inl rfl), .inr (.inr rfl)⟩
    · obtain ⟨⟨rfl, rfl⟩, _⟩ : (a = l ∧ b = r) ∧ x = r := by simpa using hx
      exact ⟨hne, .inr (.inl rfl), .inr (.inr rfl)⟩
  · have hd' : st.dropped = [] := by
      have e := hd
      rwa [GroundProver.storeNeq, dropped_register, dropped_register] at e
    obtain ⟨rl, rr⟩ := hroot hd'
    have ht₀ := h.tables.of_frame [] st.dropped
    have rl₀ : root { st with s := [] } l = l := rl
    have rr₀ : root { st with s := [] } r = r := rr
    have hc := (h.closed hd').of_register el (by simpa using rl₀) fun v hv e =>
      ht₀.eq_of_csig_pair rl₀ rr₀ hv e
    have hl₀ : NodeIn { st with s := [] } l := hl
    have ht₁ := ht₀.of_register el (by simpa using hl₀)
    have rl₁ : root (register (pairEntry l r l) { st with s := [] }) l = l := by
      rwa [root_register]
    have rr₁ : root (register (pairEntry l r l) { st with s := [] }) r = r := by
      rwa [root_register]
    have hc' := hc.of_register er (by simpa using rr₁) fun v hv e =>
      ht₁.eq_of_csig_pair rl₁ rr₁ hv e
    rw [← storeNeq_s]
    exact hc'

/-! ### `process` -/

def Literal.Term : Literal → Prop
  | .eq l r | .ne l r => GroundProver.Term l ∧ GroundProver.Term r

/-- The links and the disequalities of the state. -/
structure Model.Fits (M : Model) (st : ProverState) : Prop where
  links : ∀ p ∈ st.findalist, M.eval p.1 = M.eval p.2
  separates : M.Separates st

/-- The state after `lits`: its tables say what the literals say. -/
structure Reached (lits : List Literal) (st : ProverState) : Prop where
  rest : AtRest st
  models : ∀ M : Model, (∀ x ∈ lits, M.Holds x) ↔ M.Fits st

/-- A throw is justified; otherwise the new state is reached. -/
def Outcome (lits : List Literal) (x : Except Signal SExp) (st : ProverState) : Prop :=
  (∃ v, x = .ok v ∧ Reached lits st) ∨
    (x = .error .retfalse ∧ ∀ M : Model, ¬ ∀ x ∈ lits, M.Holds x)

/-- The canonical sides of an equation, in the order in which they are solved. -/
structure Sides (st : ProverState) (l r x y : SExp) (st' : ProverState) : Prop where
  rest : AtRest st'
  frame : ∃ ul, st' = { st with usealist := ul }
  mono : ∀ u, Registered st u → Registered st' u
  pairs : ∀ u, IsPair u → Registered st' u → Registered st u
  left : Term x ∧ NodeIn st' x
  right : Term y ∧ NodeIn st' y
  roots : st'.dropped = [] → root st' x = x ∧ root st' y = y
  eval : ∀ M : Model, (∀ p ∈ st.findalist, M.eval p.1 = M.eval p.2) →
    (M.eval x = M.eval y ↔ M.eval l = M.eval r)

theorem Canonized.sides {x y : SExp} (h : Canonized st [l, r] [x, y] st') : Sides st l r x y st' := by
  refine ⟨h.rest, h.frame, h.mono, h.pairs, h.terms x (by simp), h.terms y (by simp), fun hd => ?_,
    fun M hM => ?_⟩
  · obtain ⟨ul, rfl⟩ := h.frame
    exact ⟨h.roots hd x (by simp), h.roots hd y (by simp)⟩
  · obtain ⟨e₁, e₂⟩ : M.eval x = M.eval l ∧ M.eval y = M.eval r := by simpa using h.eval M hM
    rw [e₁, e₂]

theorem Sides.symm {x y : SExp} (h : Sides st l r x y st') : Sides st l r y x st' :=
  ⟨h.rest, h.frame, h.mono, h.pairs, h.right, h.left, fun hd => (h.roots hd).symm,
    fun M hM => eq_comm.trans (h.eval M hM)⟩

/-- `solvecan` and `nsolvecan` up to the call of the solver. -/
theorem AtRest.evals_canonSides (h : AtRest st) (tl : Term l) (tr : Term r)
    (solver : SExp → ProverM (List SExp)) : ∃ x y st', Sides st l r x y st' ∧
      ∀ {z st''}, Evals (solver (equal x y)) st' z st'' →
        Evals (do
          let l ← canon T l
          let r ← canon T r
          if subtermof l r then solver (equal r l) else solver (equal l r)) st z st'' := by
  obtain ⟨x, st₁, e₁, h₁⟩ := h.evals_canonStar T tl
  obtain ⟨y, st₂, e₂, h₂⟩ := h₁.rest.evals_canonStar T tr
  have hs : Sides st l r x y st₂ := (h₁.append h₂).sides
  by_cases hsub : subtermof x y = true
  · refine ⟨y, x, st₂, hs.symm, fun he => .bind e₁ (.bind e₂ ?_)⟩
    rwa [if_pos hsub]
  · refine ⟨x, y, st₂, hs, fun he => .bind e₁ (.bind e₂ ?_)⟩
    rwa [if_neg hsub]

theorem Sides.fits {M : Model} {x y : SExp} (h : Sides st l r x y st') :
    M.Fits st' ↔ M.Fits st := by
  obtain ⟨ul, e⟩ := h.frame
  have hf : st'.findalist = st.findalist := by rw [e]
  constructor
  · intro hM
    exact ⟨hf ▸ hM.links, fun a b x hx => hM.separates a b x (h.mono _ hx)⟩
  · intro hM
    refine ⟨hf ▸ hM.links, fun a b x hx => hM.separates a b x (h.pairs _ ?_ hx)⟩
    simp [IsPair]

theorem fits_iff_of_steps (h : AtRest st) {x : SExp} (hx : Atom st x)
    (hs : Steps { st with s := [x] } st') {M : Model} : (M.Meets st' ∧ M.Separates st') ↔
      M.Fits st ∧ ∀ l r, x = equal l r → M.eval l = M.eval r := by
  have hw := h.work hx
  have hsep : M.Separates st' ↔ M.Separates st :=
    forall_congr' fun a => forall_congr' fun b => forall_congr' fun x =>
      imp_congr (hs.registered hw) Iff.rfl
  rw [hs.meets_iff hw, hsep]
  constructor
  · rintro ⟨hM, hM'⟩
    exact ⟨⟨hM.links, hM'⟩, fun l r e => hM.atoms l r (by simp [e])⟩
  · rintro ⟨hM, he⟩
    exact ⟨⟨hM.links, fun l r hm => he l r (by simpa using Eq.symm (by simpa using hm))⟩,
      hM.separates⟩

theorem AtRest.outcome_of_atom (h : AtRest st) {x : SExp} (hx : Atom st x) {lits : List Literal}
    (hlits : ∀ M : Model, (∀ y ∈ lits, M.Holds y) ↔
      M.Fits st ∧ ∀ l r, x = equal l r → M.eval l = M.eval r) :
    ∃ z st', Evals (processSolved T [x]) st z st' ∧ Outcome lits z st' := by
  obtain rfl | ⟨l, r, rfl, hl⟩ := hx
  · refine ⟨_, st, evals_pure _ _, .inl ⟨_, rfl, h, fun M => ?_⟩⟩
    rw [hlits]
    exact and_iff_left fun l r e => by simp at e
  · have hx : Atom st (equal l r) := .inr ⟨l, r, rfl, hl⟩
    have hw := h.work hx
    have e : processSolved T [equal l r] = process1 T [equal l r] :=
      (if_neg (by simp)).trans (if_neg (by simp))
    obtain ⟨st', hs, ⟨hn, he⟩ | ⟨hc, he⟩⟩ := h.evals_process1 T hx
    · refine ⟨_, _, e ▸ he, .inl ⟨_, rfl, h.of_steps hx hs hn st.s, fun M => ?_⟩⟩
      rw [hlits, ← fits_iff_of_steps h hx hs]
      constructor
      · rintro ⟨hM, hM'⟩
        exact ⟨hM.links, hM'⟩
      · rintro ⟨hM, hM'⟩
        exact ⟨⟨hM, fun l r hm => by simp [hn] at hm⟩, hM'⟩
    · refine ⟨_, _, e ▸ he, .inr ⟨rfl, fun M hM => ?_⟩⟩
      rw [hlits, ← fits_iff_of_steps h hx hs] at hM
      exact (hs.work hw).not_contradiction hM.1 hM.2 hc

theorem forall_mem_concat {lits : List Literal} {x : Literal} {M : Model} :
    (∀ y ∈ lits ++ [x], M.Holds y) ↔ (∀ y ∈ lits, M.Holds y) ∧ M.Holds x := by
  simp [or_imp, forall_and]

theorem Reached.process_eq {lits : List Literal} (h : Reached lits st) (tl : Term l) (tr : Term r) :
    ∃ z st', Evals (process T (equal l r)) st z st' ∧ Outcome (lits ++ [.eq l r]) z st' := by
  obtain ⟨x, y, st₁, hs, he⟩ := h.rest.evals_canonSides T tl tr (solve T)
  have nx := hs.rest.tables.node hs.left.2
  have ny := hs.rest.tables.node hs.right.2
  have hsolve := he (hs.rest.tables.evals_solve T nx ny)
  have hx : Atom st₁ (eqAtom x y) := by
    obtain ⟨_, e⟩ | e | ⟨_, e⟩ := eqAtom_cases nx ny
    · exact .inl e
    · rw [e]
      exact atom_equal hs.left.2 hs.right.2 hs.left.1 hs.right.1
    · rw [e]
      exact atom_equal hs.right.2 (.inl ⟨"true", .inr (.inl rfl), rfl⟩) hs.right.1
        (.const (.inr (.inl rfl)))
  have hval : ∀ M : Model, (∀ l r, eqAtom x y = equal l r → M.eval l = M.eval r) ↔
      M.eval x = M.eval y := fun M => by
    obtain ⟨e, e'⟩ | e' | ⟨e, e'⟩ := eqAtom_cases nx ny
    · rw [e', e]
      simp
    · rw [e']
      exact ⟨fun h => h x y rfl, fun h l r e => by
        obtain ⟨rfl, rfl⟩ : x = l ∧ y = r := by simpa using e
        exact h⟩
    · rw [e']
      exact ⟨fun h => e ▸ (h y tt rfl).symm, fun h l r e'' => by
        obtain ⟨rfl, rfl⟩ : y = l ∧ tt = r := by simpa using e''
        exact e ▸ h.symm⟩
  have hlits : ∀ M : Model, (∀ z ∈ lits ++ [.eq l r], M.Holds z) ↔
      M.Fits st₁ ∧ ∀ l r, eqAtom x y = equal l r → M.eval l = M.eval r := fun M => by
    rw [forall_mem_concat, h.models M, hs.fits, hval]
    exact and_congr_right fun hM => (hs.eval M hM.links).symm
  obtain ⟨z, st₂, e, ho⟩ := hs.rest.outcome_of_atom T hx hlits
  refine ⟨z, st₂, ?_, ho⟩
  have ep : process T (equal l r) = solvecan T (equal l r) >>= processSolved T := rfl
  rw [ep]
  exact .bind hsolve e

theorem Tables.evals_nsolve (h : Tables st) (nl : Node l) (nr : Node r) {x : SExp}
    (he : Evals (nsolveEqual T (equal l r)) st (.ok x) st') :
    Evals (nsolve T (equal l r)) st (.ok [x]) st' := by
  have hty := h.atfType nl nr
  have e₁ : memq (.sym "equal") ifops = false := by decide
  have e₂ : memq (.sym "equal") arithrels = false := by decide
  unfold nsolve
  simp only [e₁, e₂, Bool.false_eq_true, if_false]
  refine .bind (evals_get st) ?_
  rw [if_pos hty]
  exact .bind he (evals_pure _ _)

theorem fits_storeNeq {M : Model} {x y : SExp} :
    M.Fits (storeNeq x y st) ↔ M.Fits st ∧ M.eval x ≠ M.eval y := by
  have hf : (storeNeq x y st).findalist = st.findalist := by
    obtain ⟨ul, e⟩ := register_frame (pairEntry x y x) st
    obtain ⟨ul', e'⟩ := register_frame (pairEntry x y y) (register (pairEntry x y x) st)
    rw [storeNeq, e', e]
  constructor
  · rintro ⟨hl, hs⟩
    exact ⟨⟨hf ▸ hl, fun a b z hz => hs a b z (registered_storeNeq.2 (.inl hz))⟩,
      hs x y x (registered_storeNeq.2 (.inr (.inl rfl)))⟩
  · rintro ⟨⟨hl, hs⟩, hne⟩
    refine ⟨hf ▸ hl, fun a b z hz => ?_⟩
    obtain hz | hz | hz := registered_storeNeq.1 hz
    · exact hs a b z hz
    · obtain ⟨⟨rfl, rfl⟩, _⟩ : (a = x ∧ b = y) ∧ z = x := by simpa using hz
      exact hne
    · obtain ⟨⟨rfl, rfl⟩, _⟩ : (a = x ∧ b = y) ∧ z = y := by simpa using hz
      exact hne

/-- A disequality: refuted if its sides are the same, skipped if their equation throws in a context
of its own, stored otherwise. -/
theorem Reached.process_ne {lits : List Literal} (h : Reached lits st) (tl : Term l) (tr : Term r) :
    ∃ z st', Evals (process T (form "not" [equal l r])) st z st' ∧
      Outcome (lits ++ [.ne l r]) z st' := by
  obtain ⟨x, y, st₁, hs, he⟩ := h.rest.evals_canonSides T tl tr (nsolve T)
  have nx := hs.rest.tables.node hs.left.2
  have ny := hs.rest.tables.node hs.right.2
  have ep : process T (form "not" [equal l r]) = nsolvecan T (equal l r) >>= processSolved T := rfl
  have hlits : ∀ M : Model, (∀ z ∈ lits ++ [.ne l r], M.Holds z) ↔
      M.Fits st₁ ∧ M.eval x ≠ M.eval y := fun M => by
    rw [forall_mem_concat, h.models M, hs.fits]
    exact and_congr_right fun hM => not_congr (hs.eval M hM.links).symm
  rw [ep]
  by_cases hne : x = y
  · have hn : Evals (nsolveEqual T (equal x y)) st₁ (.ok ff) st₁ := by
      have e : nsolveEqual T (equal x y) = pure ff := if_pos hne
      rw [e]
      exact evals_pure _ _
    refine ⟨_, st₁, .bind (he (hs.rest.tables.evals_nsolve T nx ny hn)) (evals_throw _ _),
      .inr ⟨rfl, fun M hM => ?_⟩⟩
    exact ((hlits M).1 hM).2 (congrArg _ hne)
  · obtain ⟨st', hss, hn | ⟨hc, hn⟩⟩ :=
      hs.rest.evals_nsolveEqual T hs.left.2 hs.right.2 hs.left.1 hs.right.1 hne
    · refine ⟨_, storeNeq x y st₁, .bind (he (hs.rest.tables.evals_nsolve T nx ny hn))
        (evals_process1_nequal T hs.rest.tables.types hs.left.1 hs.right.1), .inl ⟨_, rfl, ?_, ?_⟩⟩
      · exact hs.rest.storeNeq hs.left.2 hs.right.2 hs.left.1 hs.right.1 hne hs.roots
      · intro M
        rw [hlits, fits_storeNeq]
    · refine ⟨_, st₁, .bind (he (hs.rest.tables.evals_nsolve T nx ny hn)) (evals_pure _ _),
        .inl ⟨_, rfl, hs.rest, fun M => ?_⟩⟩
      rw [hlits]
      refine and_iff_left_of_imp fun hM e => ?_
      have hx := atom_equal hs.left.2 hs.right.2 hs.left.1 hs.right.1
      have hM' := (fits_iff_of_steps hs.rest hx hss).2 ⟨hM, fun l r e' => by
        obtain ⟨rfl, rfl⟩ : x = l ∧ y = r := by simpa using e'
        exact e⟩
      exact (hss.work (hs.rest.work hx)).not_contradiction hM'.1 hM'.2 hc

end

end PVS.GroundProver
