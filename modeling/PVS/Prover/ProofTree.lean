import PVS.Prover.Proofstate
import Mathlib.Data.List.Nodup
import Mathlib.Data.List.Perm.Basic
import Mathlib.Order.Nat

/-! What holds of the proof tree in every state of the driver. -/

namespace PVS.Prover

variable {σ φ : Type}

/-! ### Invariants -/

/-- What rules may answer: the sequents that they prove, and the lists of subgoals and TCCs that they
reduce a sequent to. -/
structure Calculus (σ : Type) where
  closes : σ → Prop
  reduces : σ → List σ → Prop

/-- The current subgoal, until it is done. -/
def Proofstate.active (p : Proofstate σ φ) : List ℕ :=
  match p.current with
  | some c => if c ∈ p.done then [] else [c]
  | none => []

/-- The subgoals, each once. -/
def Proofstate.listed (p : Proofstate σ φ) : List ℕ := p.active ++ (p.remaining ++ (p.pending ++ p.done))

namespace Proofstate

variable {p : Proofstate σ φ} {c : ℕ}

theorem active_eq_nil (h : p.current = none) : p.active = [] := by rw [active, h]

theorem active_eq_singleton (h : p.current = some c) (hc : c ∉ p.done) : p.active = [c] := by
  rw [active, h]
  exact if_neg hc

theorem listed_of_current (hcurrent : p.current = some c) (hdone : c ∉ p.done) :
    p.listed = c :: (p.remaining ++ (p.pending ++ p.done)) := by
  rw [listed, active_eq_singleton hcurrent hdone]
  rfl

theorem remaining_subset_listed (hc : c ∈ p.remaining) : c ∈ p.listed :=
  List.mem_append_right _ (List.mem_append_left _ hc)

theorem pending_subset_listed (hc : c ∈ p.pending) : c ∈ p.listed :=
  List.mem_append_right _ (List.mem_append_right _ (List.mem_append_left _ hc))

theorem done_subset_listed (hc : c ∈ p.done) : c ∈ p.listed :=
  List.mem_append_right _ (List.mem_append_right _ (List.mem_append_right _ hc))

end Proofstate

/-- How a list of subgoals comes from a goal. -/
def Step.Yields (d : Driver σ φ) (k : Calculus σ) (goal : σ) (subgoals : List σ) : Prop :=
  (∃ gs, k.reduces goal gs ∧ subgoals = gs.map d.cleanGoal) ∨ subgoals = [d.cleanGoal goal]

/-- What a proof state keeps. -/
structure Proofstate.SameGoal (p q : Proofstate σ φ) : Prop where
  parent : p.parent = q.parent
  currentGoal : p.currentGoal = q.currentGoal
  kind : p.kind = q.kind

theorem Proofstate.SameGoal.refl (p : Proofstate σ φ) : p.SameGoal p := ⟨rfl, rfl, rfl⟩

/-- What holds of the proof state `p`, which is the `n`th, where the others are `node`. -/
structure Kept (d : Driver σ φ) (k : Calculus σ) (next : ℕ) (node : ℕ → Proofstate σ φ) (n : ℕ)
    (p : Proofstate σ φ) : Prop where
  parent_lt : ∀ par, p.parent = some par → par < n
  root : p.parent = none → n = 0
  listed : ∀ cs, p.application = .reduced cs → p.listed.Perm cs ∧ cs.Nodup
  unlisted : (∀ cs, p.application ≠ .reduced cs) → p.listed = []
  made : ∀ cs, p.application = .reduced cs → ∀ c ∈ cs, n < c ∧ c < next ∧ (node c).parent = some n
  yields : ∀ cs, p.application = .reduced cs →
    Step.Yields d k p.currentGoal (cs.map fun c => (node c).currentGoal)
  strat : ∀ cs, p.application = .reduced cs → ∀ c ∈ cs, (node c).kind = .strat → cs = [c]
  notPropax : ∀ cs, p.application = .reduced cs → d.propax p.currentGoal = false
  closed : p.application = .closed →
    p.status = .bang ∧ (k.closes p.currentGoal ∨ d.propax p.currentGoal = true)
  fresh : p.status.isFresh = true → p.application = .none ∨
    n = 0 ∧ p.strategy = none ∧ p.pending ≠ []
  query : p.status = .query → ∃ cs, p.application = .reduced cs
  bang : p.status = .bang → p.application = .closed ∨
    ∃ cs, p.application = .reduced cs ∧ ∀ c ∈ cs, (node c).status = .bang
  star : p.status = .star → p.application = .none ∨
    subgoalStrategy p.strategy = none ∧ p.pending ≠ []
  remaining : ∀ c ∈ p.remaining, (node c).active = []
  pending : ∀ c ∈ p.pending, (node c).active = [] ∧ (node c).status = .star
  done : ∀ c ∈ p.done, (node c).status = .bang

/-- Each proof state above is working on the subgoal that is on the way down. -/
inductive OnPath (t : ProofTree σ φ) : ℕ → Prop
  | root {n : ℕ} : (t.node n).parent = none → OnPath t n
  | child {n par : ℕ} : (t.node n).parent = some par → (t.node par).status = .query →
      (t.node par).current = some n → n ∉ (t.node par).done → OnPath t par → OnPath t n

structure Invariant (d : Driver σ φ) (k : Calculus σ) (t : ProofTree σ φ) (ps : ℕ) : Prop where
  kept : ∀ n < t.next, Kept d k t.next t.node n (t.node n)
  lt : ps < t.next
  path : OnPath t ps
  active : (t.node ps).status ≠ .x → (t.node ps).status ≠ .xx → (t.node ps).active = []

namespace Kept

variable {d : Driver σ φ} {k : Calculus σ} {next next' : ℕ} {node node' : ℕ → Proofstate σ φ}
  {n c : ℕ} {p : Proofstate σ φ}

theorem mem_of_listed (h : Kept d k next node n p) (hc : c ∈ p.listed) :
    ∃ cs, p.application = .reduced cs ∧ c ∈ cs := by
  by_cases hred : ∀ cs, p.application ≠ .reduced cs
  · rw [h.unlisted hred] at hc
    cases hc
  · obtain ⟨cs, hcs⟩ := not_forall_not.1 hred
    exact ⟨cs, hcs, (h.listed cs hcs).1.mem_iff.1 hc⟩

/-- What is listed as a subgoal is one. -/
theorem made_of_listed (h : Kept d k next node n p) (hc : c ∈ p.listed) :
    n < c ∧ c < next ∧ (node c).parent = some n := by
  obtain ⟨cs, hcs, hmem⟩ := h.mem_of_listed hc
  exact h.made cs hcs c hmem

/-- A proof state is kept where its subgoals do not change. -/
theorem congr (h : Kept d k next node n p) (hnext : next ≤ next')
    (hsame : ∀ c < next, n < c → (node' c).SameGoal (node c))
    (hremaining : ∀ c ∈ p.remaining, (node' c).active = (node c).active)
    (hlisted : ∀ c ∈ p.pending ++ p.done, node' c = node c)
    (hbang : p.status = .bang → ∀ cs, p.application = .reduced cs → ∀ c ∈ cs, node' c = node c) :
    Kept d k next' node' n p :=
  { h with
    made := by
      intro cs hcs c hc
      obtain ⟨hgt, hlt, hparent⟩ := h.made cs hcs c hc
      exact ⟨hgt, hlt.trans_le hnext, (hsame c hlt hgt).parent.trans hparent⟩
    yields := by
      intro cs hcs
      rw [List.map_congr_left fun c hc =>
        (hsame c (h.made cs hcs c hc).2.1 (h.made cs hcs c hc).1).currentGoal]
      exact h.yields cs hcs
    strat := by
      intro cs hcs c hc hkind
      obtain ⟨hgt, hlt, -⟩ := h.made cs hcs c hc
      exact h.strat cs hcs c hc ((hsame c hlt hgt).kind ▸ hkind)
    bang := by
      intro hstatus
      rcases h.bang hstatus with hclosed | ⟨cs, hcs, hall⟩
      · exact .inl hclosed
      · refine .inr ⟨cs, hcs, fun c hc => ?_⟩
        rw [hbang hstatus cs hcs c hc]
        exact hall c hc
    remaining := by
      intro c hc
      rw [hremaining c hc]
      exact h.remaining c hc
    pending := by
      intro c hc
      rw [hlisted c (List.mem_append_left _ hc)]
      exact h.pending c hc
    done := by
      intro c hc
      rw [hlisted c (List.mem_append_right _ hc)]
      exact h.done c hc }

/-- Later proof states are all that a proof state depends on. -/
theorem congr_of_lt (h : Kept d k next node n p) (hnext : next ≤ next')
    (hlater : ∀ c < next, n < c → node' c = node c) : Kept d k next' node' n p := by
  apply h.congr hnext
  · intro c hc hgt
    rw [hlater c hc hgt]
    exact .refl _
  · intro c hc
    obtain ⟨hgt, hlt, -⟩ := h.made_of_listed (Proofstate.remaining_subset_listed hc)
    rw [hlater c hlt hgt]
  · intro c hc
    obtain ⟨hgt, hlt, -⟩ := h.made_of_listed (List.mem_append_right _ (List.mem_append_right _ hc))
    exact hlater c hlt hgt
  · intro _ cs hcs c hc
    obtain ⟨hgt, hlt, -⟩ := h.made cs hcs c hc
    exact hlater c hlt hgt

variable {q : Proofstate σ φ} {cs : List ℕ}

/-- A proof state to which no rule has been applied. -/
theorem of_none (h : Kept d k next node n p) (hsame : q.SameGoal p) (happ : q.application = .none)
    (hlisted : q.listed = []) (hquery : q.status ≠ .query) (hbang : q.status ≠ .bang) :
    Kept d k next node n q where
  parent_lt par hpar := h.parent_lt par (hsame.parent ▸ hpar)
  root hroot := h.root (hsame.parent ▸ hroot)
  listed cs hcs := by rw [happ] at hcs; cases hcs
  unlisted _ := hlisted
  made cs hcs := by rw [happ] at hcs; cases hcs
  yields cs hcs := by rw [happ] at hcs; cases hcs
  strat cs hcs := by rw [happ] at hcs; cases hcs
  notPropax cs hcs := by rw [happ] at hcs; cases hcs
  closed hclosed := by rw [happ] at hclosed; cases hclosed
  fresh _ := .inl happ
  query hstatus := absurd hstatus hquery
  bang hstatus := absurd hstatus hbang
  star _ := .inl happ
  remaining c hc := by
    have hmem : c ∈ q.listed := List.mem_append_right _ (List.mem_append_left _ hc)
    rw [hlisted] at hmem
    cases hmem
  pending c hc := by
    have hmem : c ∈ q.listed :=
      List.mem_append_right _ (List.mem_append_right _ (List.mem_append_left _ hc))
    rw [hlisted] at hmem
    cases hmem
  done c hc := by
    have hmem : c ∈ q.listed :=
      List.mem_append_right _ (List.mem_append_right _ (List.mem_append_right _ hc))
    rw [hlisted] at hmem
    cases hmem

/-- A proof state whose subgoals are listed in another way. -/
theorem of_reduced (h : Kept d k next node n p) (hsame : q.SameGoal p)
    (hp : p.application = .reduced cs) (hq : q.application = .reduced cs)
    (hlisted : q.listed.Perm p.listed) (hfresh : q.status.isFresh = false)
    (hbang : q.status = .bang → ∀ c ∈ cs, (node c).status = .bang)
    (hstar : q.status = .star → subgoalStrategy q.strategy = none ∧ q.pending ≠ [])
    (hremaining : ∀ c ∈ q.remaining, (node c).active = [])
    (hpending : ∀ c ∈ q.pending, (node c).active = [] ∧ (node c).status = .star)
    (hdone : ∀ c ∈ q.done, (node c).status = .bang) : Kept d k next node n q where
  parent_lt par hpar := h.parent_lt par (hsame.parent ▸ hpar)
  root hroot := h.root (hsame.parent ▸ hroot)
  listed := by
    intro cs' hcs'
    obtain rfl : cs = cs' := Application.reduced.inj (hq.symm.trans hcs')
    exact ⟨hlisted.trans (h.listed cs hp).1, (h.listed cs hp).2⟩
  unlisted hnot := absurd hq (hnot cs)
  made cs' hcs' := h.made cs' (hp.trans (hq.symm.trans hcs'))
  yields cs' hcs' := hsame.currentGoal ▸ h.yields cs' (hp.trans (hq.symm.trans hcs'))
  strat cs' hcs' := h.strat cs' (hp.trans (hq.symm.trans hcs'))
  notPropax cs' hcs' := hsame.currentGoal ▸ h.notPropax cs' (hp.trans (hq.symm.trans hcs'))
  closed hclosed := by rw [hq] at hclosed; cases hclosed
  fresh hstatus := by rw [hfresh] at hstatus; cases hstatus
  query _ := ⟨cs, hq⟩
  bang hstatus := .inr ⟨cs, hq, hbang hstatus⟩
  star hstatus := .inr (hstar hstatus)
  remaining := hremaining
  pending := hpending
  done := hdone

theorem listed_eq_nil_of_none (h : Kept d k next node n p) (happ : p.application = .none) :
    p.listed = [] := by
  apply h.unlisted
  intro cs hcs
  rw [happ] at hcs
  cases hcs

end Kept

namespace OnPath

variable {t t' : ProofTree σ φ} {n : ℕ}

/-- A path depends on what is above. -/
theorem congr (h : OnPath t n) (hlt : ∀ m par, (t.node m).parent = some par → m ≤ n → par < m)
    (hagree : ∀ m < n, t'.node m = t.node m) (hn : (t'.node n).parent = (t.node n).parent) :
    OnPath t' n := by
  induction h with
  | root hparent => exact .root (hn.trans hparent)
  | @child n par hparent hquery hcurrent hdone _ ih =>
    have hpar := hlt n par hparent le_rfl
    have heq := hagree par hpar
    refine .child (hn.trans hparent) (heq ▸ hquery) (heq ▸ hcurrent) (heq ▸ hdone) ?_
    apply ih
    · exact fun m p hm hle => hlt m p hm (hle.trans hpar.le)
    · exact fun m hm => hagree m (hm.trans hpar)
    · rw [heq]

end OnPath

/-! ### Changes on the path -/

section Modify

variable {d : Driver σ φ} {k : Calculus σ} {t t' : ProofTree σ φ} {ps n c : ℕ}

/-- A proof state on the path is the current subgoal of its parent and not listed elsewhere. -/
theorem OnPath.notMem_listed (hps : OnPath t ps) (hn : Kept d k t.next t.node n (t.node n))
    (hc : ps ∈ (t.node n).remaining ++ ((t.node n).pending ++ (t.node n).done)) : False := by
  have hmem : ps ∈ (t.node n).listed := List.mem_append_right _ hc
  have hparent := (hn.made_of_listed hmem).2.2
  obtain ⟨cs, hcs, -⟩ := hn.mem_of_listed hmem
  obtain ⟨hperm, hnodup⟩ := hn.listed cs hcs
  cases hps with
  | root hroot => rw [hroot] at hparent; cases hparent
  | child hpar hquery hcurrent hdone _ =>
    obtain rfl := Option.some.inj (hparent.symm.trans hpar)
    have hlisted := hperm.nodup_iff.2 hnodup
    rw [Proofstate.listed, Proofstate.active_eq_singleton hcurrent hdone] at hlisted
    exact (List.nodup_cons.1 hlisted).1 hc

theorem OnPath.status_parent (hps : OnPath t ps) (hparent : (t.node ps).parent = some n) :
    (t.node n).status = .query := by
  cases hps with
  | root hroot => rw [hroot] at hparent; cases hparent
  | child hpar hquery _ _ _ =>
    obtain rfl := Option.some.inj (hparent.symm.trans hpar)
    exact hquery

/-- A change of a proof state on the path keeps the others. -/
theorem kept_of_eq_off (hn : Kept d k t.next t.node n (t.node n)) (hps : OnPath t ps)
    (hnext : t.next ≤ t'.next) (hoff : ∀ n < t.next, n ≠ ps → t'.node n = t.node n)
    (hsame : (t'.node ps).SameGoal (t.node ps)) :
    Kept d k t'.next t'.node n (t.node n) := by
  apply hn.congr hnext
  · intro c hc _
    by_cases hcps : c = ps
    · exact hcps ▸ hsame
    · rw [hoff c hc hcps]
      exact .refl _
  · intro c hc
    have hlt := (hn.made_of_listed (Proofstate.remaining_subset_listed hc)).2.1
    rw [hoff c hlt]
    rintro rfl
    exact hps.notMem_listed hn (List.mem_append_left _ hc)
  · intro c hc
    have hlt := (hn.made_of_listed (List.mem_append_right _ (List.mem_append_right _ hc))).2.1
    refine hoff c hlt ?_
    rintro rfl
    exact hps.notMem_listed hn (List.mem_append_right _ hc)
  · intro hbang cs hcs c hc
    obtain ⟨-, hlt, hcparent⟩ := hn.made cs hcs c hc
    refine hoff c hlt ?_
    rintro rfl
    rw [hps.status_parent hcparent] at hbang
    cases hbang

theorem OnPath.of_eq_off (hps : OnPath t ps) (hlt : ps < t.next)
    (hkept : ∀ n < t.next, Kept d k t.next t.node n (t.node n))
    (hoff : ∀ n < t.next, n ≠ ps → t'.node n = t.node n)
    (hparent : (t'.node ps).parent = (t.node ps).parent) : OnPath t' ps := by
  apply hps.congr _ _ hparent
  · intro m par hm hle
    exact (hkept m (hle.trans_lt hlt)).parent_lt par hm
  · intro m hm
    exact hoff m (hm.trans hlt) hm.ne

/-- A proof state on the path may be changed to what is kept. -/
theorem forall_kept_of_eq_off (hkept : ∀ n < t.next, Kept d k t.next t.node n (t.node n))
    (hps : OnPath t ps) (hnext : t.next ≤ t'.next)
    (hoff : ∀ n < t.next, n ≠ ps → t'.node n = t.node n)
    (hsame : (t'.node ps).SameGoal (t.node ps))
    (hself : Kept d k t'.next t'.node ps (t'.node ps))
    (hnew : ∀ n < t'.next, t.next ≤ n → Kept d k t'.next t'.node n (t'.node n)) :
    ∀ n < t'.next, Kept d k t'.next t'.node n (t'.node n) := by
  intro n hn
  by_cases hold : n < t.next
  · by_cases hne : n = ps
    · exact hne ▸ hself
    · rw [hoff n hold hne]
      exact kept_of_eq_off (hkept n hold) hps hnext hoff hsame
  · exact hnew n hn (not_lt.1 hold)

variable {f : Proofstate σ φ → Proofstate σ φ}

theorem forall_kept_modify (hkept : ∀ n < t.next, Kept d k t.next t.node n (t.node n))
    (hps : OnPath t ps) (hsame : (f (t.node ps)).SameGoal (t.node ps))
    (hself : Kept d k t.next t.node ps (f (t.node ps))) :
    ∀ n < t.next, Kept d k t.next (t.modify ps f).node n ((t.modify ps f).node n) := by
  have hoff : ∀ n < t.next, n ≠ ps → (t.modify ps f).node n = t.node n :=
    fun n _ hne => t.modify_node_of_ne hne f
  have hkeptSelf : Kept d k (t.modify ps f).next (t.modify ps f).node ps (f (t.node ps)) := by
    apply hself.congr_of_lt le_rfl
    exact fun c _ hgt => t.modify_node_of_ne hgt.ne' f
  rw [← t.modify_node_self ps f] at hsame hkeptSelf
  have hnext : t.next ≤ (t.modify ps f).next := le_rfl
  apply forall_kept_of_eq_off hkept hps hnext hoff hsame hkeptSelf
  exact fun n hn hle => absurd hn (not_lt.2 hle)

theorem OnPath.modify (hps : OnPath t ps) (hlt : ps < t.next)
    (hkept : ∀ n < t.next, Kept d k t.next t.node n (t.node n))
    (hsame : (f (t.node ps)).SameGoal (t.node ps)) : OnPath (t.modify ps f) ps := by
  apply hps.of_eq_off hlt hkept
  · exact fun n _ hne => t.modify_node_of_ne hne f
  · rw [t.modify_node_self]
    exact hsame.parent

theorem invariant_modify (hkept : ∀ n < t.next, Kept d k t.next t.node n (t.node n))
    (hps : OnPath t ps) (hlt : ps < t.next) (hsame : (f (t.node ps)).SameGoal (t.node ps))
    (hself : Kept d k t.next t.node ps (f (t.node ps)))
    (hactive : (f (t.node ps)).status ≠ .x → (f (t.node ps)).status ≠ .xx →
      (f (t.node ps)).active = []) : Invariant d k (t.modify ps f) ps := by
  refine ⟨forall_kept_modify hkept hps hsame hself, hlt, hps.modify hlt hkept hsame, ?_⟩
  rwa [t.modify_node_self]

end Modify

end PVS.Prover
