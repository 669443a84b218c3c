import PVS.GroundProver.Literals

/-! The ground prover as a decision procedure for equality over uninterpreted symbols: what a run of
`process` from `initprover` decides, and the runs in which it fails to. -/

namespace PVS.GroundProver

open Library SExp UnionFind

/-! ### Models and the two truth values -/

/-- `M` with two more values, which `true` and `false` stand for. -/
def Model.withBools (M : Model) : Model where
  D := M.D ⊕ Bool
  fn f ds :=
    if f = "true" then .inr true
    else if f = "false" then .inr false
    else .inl (M.fn f (ds.map (Sum.elim id fun _ => M.fn "nil" [])))

theorem Model.eval_withBools (M : Model) {t : SExp} (h : Ground t) :
    M.withBools.eval t = .inl (M.eval t) := by
  induction h with
  | @const n hn =>
    have h₁ : n ≠ "true" := hn.ne (by decide)
    have h₂ : n ≠ "false" := hn.ne (by decide)
    exact (if_neg h₁).trans (if_neg h₂)
  | @app f args hf _ _ ih =>
    have h₁ : f ≠ "true" := hf.ne (by decide)
    have h₂ : f ≠ "false" := hf.ne (by decide)
    have e : args.map M.withBools.eval = (args.map M.eval).map Sum.inl :=
      (List.map_congr_left ih).trans List.map_map.symm
    have e' : ((args.map M.eval).map Sum.inl).map (Sum.elim id fun _ : Bool => M.fn "nil" []) =
        args.map M.eval := by
      rw [List.map_map]
      exact List.map_id _
    rw [Model.eval, Model.evalArgs_ofList, Model.eval, Model.evalArgs_ofList, e, ← e']
    refine (if_neg h₁).trans ((if_neg h₂).trans ?_)
    rw [e', e']

theorem Model.holds_withBools (M : Model) {l : Literal} (h : l.Ground) :
    M.withBools.Holds l ↔ M.Holds l := by
  cases l with
  | eq l r =>
    simp only [Model.Holds, M.eval_withBools h.1, M.eval_withBools h.2]
    exact Sum.inl_injective.eq_iff
  | ne l r =>
    simp only [Model.Holds, M.eval_withBools h.1, M.eval_withBools h.2, ne_eq]
    exact not_congr Sum.inl_injective.eq_iff

theorem Model.withBools_ne (M : Model) : M.withBools.Holds (.ne tt ff) :=
  fun (e : (Sum.inr true : M.D ⊕ Bool) = .inr false) => by simp at e

/-! ### A run -/

theorem Literal.Ground.term {l : Literal} (h : l.Ground) : l.Term := by
  cases l <;> exact ⟨GroundProver.Ground.term h.1, GroundProver.Ground.term h.2⟩

section

variable (T : Theories) {st : ProverState}

def run (lits : List Literal) : ProverM Unit := do
  let _ ← initprover T
  processAll T (lits.map Literal.toSExp)

theorem Reached.process {lits : List Literal} (h : Reached lits st) {l : Literal} (hl : l.Term) :
    ∃ z st', Evals (process T l.toSExp) st z st' ∧ Outcome (lits ++ [l]) z st' := by
  cases l with
  | eq l r => exact h.process_eq T hl.1 hl.2
  | ne l r => exact h.process_ne T hl.1 hl.2

theorem reached_nil (st : ProverState) : Reached [] { st with
    typealist := primtypealist, sigalist := [], findalist := [], usealist := []
    applysymlist := [], dropped := [] } := by
  have hr : ∀ u, ¬ ∃ p ∈ ([] : List (SExp × List SExp)), u ∈ p.2 := by simp
  refine ⟨⟨⟨rfl, trivial, fun u hu => (hr u hu).elim, by simp, fun u hu => (hr u hu).elim, by simp,
    fun u hu => (hr u hu).elim⟩, fun a b x hx => (hr _ hx).elim, fun _ => ⟨fun u _ => rfl,
    fun u hu => (hr u hu).elim, fun u v hu => (hr u hu).elim⟩⟩, fun M => ?_⟩
  exact ⟨fun _ => ⟨by simp, fun a b x hx => (hr _ hx).elim⟩, by simp⟩

theorem evals_initprover (st : ProverState) : ∃ v st', Evals (initprover T) st (.ok v) st' ∧
    Reached [.ne tt ff] st' := by
  have ht : (Literal.ne tt ff).Term := ⟨.const (.inr (.inl rfl)), .const (.inr (.inr rfl))⟩
  obtain ⟨z, st', he, ⟨v, rfl, hr⟩ | ⟨rfl, hn⟩⟩ := (reached_nil st).process T ht
  · exact ⟨v, st', .bind (evals_modify _ _) he, hr⟩
  · refine absurd ?_ (hn (Model.withBools ⟨Unit, fun _ _ => ()⟩))
    simpa using Model.withBools_ne _

/-- A run ends, in a state that says what the literals say or in a justified throw. -/
theorem Reached.evals_processAll {lits lits' : List Literal} (h : Reached lits st)
    (hl : ∀ l ∈ lits', l.Term) : ∃ z st', Evals (processAll T (lits'.map Literal.toSExp)) st z st' ∧
      ((z = .ok ⟨⟩ ∧ Reached (lits ++ lits') st') ∨
        (z = .error .retfalse ∧ ∀ M : Model, ¬ ∀ x ∈ lits ++ lits', M.Holds x)) := by
  induction lits' generalizing lits st with
  | nil => exact ⟨_, st, evals_pure _ _, .inl ⟨rfl, by simpa using h⟩⟩
  | cons l lits' ih =>
    obtain ⟨z, st₁, he, ⟨v, rfl, hr⟩ | ⟨rfl, hn⟩⟩ := h.process T (hl l (by simp))
    · obtain ⟨z, st₂, he', ho⟩ := ih hr fun l hm => hl l (by simp [hm])
      exact ⟨z, st₂, .bind he he', by simpa using ho⟩
    · refine ⟨_, st₁, .bind_throw he, .inr ⟨rfl, fun M hM => hn M fun x hx => hM x ?_⟩⟩
      simp only [List.mem_append, List.mem_cons] at hx ⊢
      tauto

theorem evals_run (st : ProverState) {lits : List Literal} (hl : ∀ l ∈ lits, l.Ground) :
    ∃ z st', Evals (run T lits) st z st' ∧
      ((z = .ok ⟨⟩ ∧ Reached (.ne tt ff :: lits) st') ∨
        (z = .error .retfalse ∧ ¬ Satisfiable lits)) := by
  obtain ⟨v, st₁, he, hr⟩ := evals_initprover T st
  obtain ⟨z, st₂, he', ho⟩ := hr.evals_processAll T fun l hm => (hl l hm).term
  refine ⟨z, st₂, .bind he he', ho.imp id fun ⟨hz, hn⟩ => ⟨hz, ?_⟩⟩
  rintro ⟨M, hM⟩
  refine hn M.withBools fun x hx => ?_
  obtain rfl | hx := List.mem_cons.1 hx
  · exact M.withBools_ne
  · exact (M.holds_withBools (hl x hx)).2 (hM x hx)

/-- Without a lost entry the tables have a model in which different roots are different. -/
theorem AtRest.exists_model (h : AtRest st) (hd : st.dropped = []) : ∃ M : Model, M.Fits st ∧
    ∀ x y, Term x ∧ NodeIn st x → Term y ∧ NodeIn st y → M.eval x = M.eval y →
      root st x = root st y := by
  have hc := h.closed hd
  have ht := h.tables.of_frame [] st.dropped
  refine ⟨tableModel { st with s := [] }, ⟨(hc.meets rfl ht).links, hc.separates rfl ht h.paired⟩,
    fun x y hx hy e => ?_⟩
  have ex := hc.eval_eq_root rfl ht hx.1 hx.2
  have ey := hc.eval_eq_root rfl ht hy.1 hy.2
  exact ex.symm.trans (e.trans ey)

theorem Reached.satisfiable {lits : List Literal} (h : Reached lits st) (hd : st.dropped = []) :
    ∃ M : Model, ∀ l ∈ lits, M.Holds l := by
  obtain ⟨M, hM, _⟩ := h.rest.exists_model hd
  exact ⟨M, (h.models M).2 hM⟩

/-- `canon` of `s`, then of `t`. -/
theorem Reached.evals_canon {lits : List Literal} (h : Reached (.ne tt ff :: lits) st)
    (hl : ∀ l ∈ lits, l.Ground) {s t : SExp} (hs : Ground s) (ht : Ground t) :
    ∃ a st₁ b st₂, Evals (canon T s) st (.ok a) st₁ ∧ Evals (canon T t) st₁ (.ok b) st₂ ∧
      (a = b → Entails lits (.eq s t)) ∧
      (st.dropped = [] → Entails lits (.eq s t) → a = b) := by
  obtain ⟨a, st₁, e₁, h₁⟩ := h.rest.evals_canonStar T hs.term
  obtain ⟨b, st₂, e₂, h₂⟩ := h₁.rest.evals_canonStar T ht.term
  have hsd : Sides st s t a b st₂ := (h₁.append h₂).sides
  refine ⟨a, st₁, b, st₂, e₁, e₂, fun hab M hM => ?_, fun hd he => ?_⟩
  · have hf : M.withBools.Fits st := (h.models M.withBools).1 fun x hx => by
      obtain rfl | hx := List.mem_cons.1 hx
      · exact M.withBools_ne
      · exact (M.holds_withBools (hl x hx)).2 (hM x hx)
    exact (M.holds_withBools (l := .eq s t) ⟨hs, ht⟩).1
      ((hsd.eval _ hf.links).1 (congrArg _ hab))
  · have hd₂ : st₂.dropped = [] := by
      obtain ⟨ul, rfl⟩ := hsd.frame
      exact hd
    obtain ⟨M, hM, hroot⟩ := hsd.rest.exists_model hd₂
    have hf : M.Fits st := hsd.fits.1 hM
    have hst := he M fun x hx => (h.models M).2 hf x (by simp [hx])
    have hr := hroot a b hsd.left hsd.right ((hsd.eval M hf.links).2 hst)
    obtain ⟨ra, rb⟩ := hsd.roots hd₂
    rwa [ra, rb] at hr

/-- The run throws iff the literals are unsatisfiable; if it does not, `canon` decides equality. -/
def Decides (st₀ : ProverState) (lits : List Literal) : Prop :=
  ∃ z st, Evals (run T lits) st₀ z st ∧ (z = .error .retfalse ↔ ¬ Satisfiable lits) ∧
    (z = .ok ⟨⟩ → ∀ s t, Ground s → Ground t →
      ∃ a st₁ b st₂, Evals (canon T s) st (.ok a) st₁ ∧ Evals (canon T t) st₁ (.ok b) st₂ ∧
        (a = b ↔ Entails lits (.eq s t)))

/-- Every run ends and throws only if it may; it decides its literals if `pr-merge` has not lost an
entry. -/
theorem run_decides (st₀ : ProverState) (lits : List Literal) (hl : ∀ l ∈ lits, l.Ground) :
    ∃ z st, Evals (run T lits) st₀ z st ∧ (z = .error .retfalse → ¬ Satisfiable lits) ∧
      (st.dropped = [] → Decides T st₀ lits) := by
  obtain ⟨z, st, he, ⟨rfl, hr⟩ | ⟨rfl, hn⟩⟩ := evals_run T st₀ hl
  · refine ⟨_, st, he, fun h => by simp at h, fun hd => ⟨_, st, he, ?_, fun _ s t hs ht => ?_⟩⟩
    · obtain ⟨M, hM⟩ := hr.satisfiable hd
      have hsat : Satisfiable lits := ⟨M, fun l hm => hM l (by simp [hm])⟩
      simp [hsat]
    · obtain ⟨a, st₁, b, st₂, e₁, e₂, h₁, h₂⟩ := hr.evals_canon T hl hs ht
      exact ⟨a, st₁, b, st₂, e₁, e₂, h₁, h₂ hd⟩
  · exact ⟨_, st, he, fun _ => hn, fun _ => ⟨_, st, he, iff_of_true rfl hn, fun h => by simp at h⟩⟩

end

/-! ### A run that loses an entry -/

/-- Theories that rewrite nothing: on ground terms over uninterpreted symbols they are not called. -/
def noTheories : Theories where
  canonBetaReduce t := pure t
  sigapplyUpdate t := pure t
  sigtupsel t := pure t
  sigmaInterp t := pure t
  canonProtect t _ := pure t
  canonTimes _ := pure none
  adduseTimes _ _ := pure ()
  arithsolve t := pure [t]
  arithnsolve t := pure [t]
  tupsolve t := pure [t]
  tupnsolve t := pure [t]
  arraysolve t := pure [t]
  arraynsolve t := pure [t]
  nsolveIf t := pure [t]
  addineq _ := pure ()
  addneqNumber _ _ := pure ()
  reprocessTimesuse _ := pure ()
  subsumedIneqList _ _ := false
  isSkolemizedApply _ _ := false
  mergeApplyLambda _ _ := pure ()
  mergeInterp _ _ _ _ := pure ()

def emptyState : ProverState := ⟨[], [], [], [], [], [], []⟩

/-- Merging `z2` with `z` takes `f(a, z2)` off `use(z)`, so merging `z` with `y` misses it. -/
def lostEntry : List Literal :=
  let f (x y : String) : SExp := form "f" [.sym x, .sym y]
  [.eq (f "a" "z1") (.sym "k"), .eq (f "a" "z2") (.sym "m"), .eq (.sym "z1") (.sym "z"),
    .eq (.sym "z2") (.sym "z"), .eq (.sym "a") (.sym "b"), .eq (.sym "b") (.sym "c"),
    .eq (.sym "z") (.sym "y"), .ne (f "a" "z1") (.sym "k")]

theorem run_decides_eq : ∃ z st,
    Evals (run noTheories [.eq (.sym "a") (.sym "b")]) emptyState z st ∧
      (z = .error .retfalse → ¬ Satisfiable [.eq (.sym "a") (.sym "b")]) ∧
      (st.dropped = [] → Decides noTheories emptyState [.eq (.sym "a") (.sym "b")]) :=
  run_decides noTheories emptyState _ fun l hl => by
    obtain rfl : l = .eq (.sym "a") (.sym "b") := by simpa using hl
    exact ⟨.const (by decide), .const (by decide)⟩

theorem not_satisfiable_lostEntry : ¬ Satisfiable lostEntry := by
  rintro ⟨M, hM⟩
  simp only [lostEntry, List.forall_mem_cons] at hM
  exact hM.2.2.2.2.2.2.2.1 hM.1

theorem not_decides_lostEntry : ¬ Decides noTheories emptyState lostEntry := by
  rintro ⟨z, st, he, hz, _⟩
  have hr : ((run noTheories lostEntry).run 8 emptyState).map Prod.fst = some (.ok ⟨⟩) := by
    decide +kernel
  obtain ⟨⟨x, st'⟩, hx, rfl⟩ := Option.map_eq_some_iff.1 hr
  obtain ⟨rfl, _⟩ := he.unique ⟨8, hx⟩
  exact absurd (hz.2 not_satisfiable_lostEntry) (by simp)

end PVS.GroundProver
