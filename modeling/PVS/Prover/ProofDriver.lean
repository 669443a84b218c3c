import PVS.Prover.ProofTree

/-! Every step of the driver keeps the proof tree. -/

namespace PVS.Prover

variable {σ φ : Type} {d : Driver σ φ} {k : Calculus σ} {t : ProofTree σ φ} {ps par c : ℕ}

attribute [local simp] Flag.isFresh

/-! ### Down and up -/

theorem Kept.exists_reduced {next n : ℕ} {node : ℕ → Proofstate σ φ} {p : Proofstate σ φ}
    (h : Kept d k next node n p) (hlisted : p.listed ≠ []) : ∃ cs, p.application = .reduced cs := by
  obtain ⟨c, hc⟩ := List.exists_mem_of_ne_nil _ hlisted
  obtain ⟨cs, hcs, -⟩ := h.mem_of_listed hc
  exact ⟨cs, hcs⟩

namespace Invariant

theorem self (h : Invariant d k t ps) : Kept d k t.next t.node ps (t.node ps) := h.kept ps h.lt

theorem parent_lt (h : Invariant d k t ps) (hpar : (t.node ps).parent = some par) : par < ps :=
  h.self.parent_lt par hpar

/-- The next subgoal is taken. -/
theorem pop {rest : List ℕ} (h : Invariant d k t ps) (hquery : (t.node ps).status = .query)
    (hrem : (t.node ps).remaining = c :: rest) :
    Invariant d k (t.modify ps fun p => { p with remaining := rest, current := some c }) c := by
  have hactive : (t.node ps).active = [] := h.active (by simp [hquery]) (by simp [hquery])
  have hc : c ∈ (t.node ps).listed := Proofstate.remaining_subset_listed (by simp [hrem])
  obtain ⟨cs, hcs, -⟩ := h.self.mem_of_listed hc
  obtain ⟨hgt, hlt, hparent⟩ := h.self.made_of_listed hc
  have hlisted : (t.node ps).listed = c :: (rest ++ ((t.node ps).pending ++ (t.node ps).done)) := by
    rw [Proofstate.listed, hactive, hrem]
    rfl
  have hnotDone : c ∉ (t.node ps).done := by
    have hnodup := (h.self.listed cs hcs).1.nodup_iff.2 (h.self.listed cs hcs).2
    rw [hlisted] at hnodup
    have hnotMem := (List.nodup_cons.1 hnodup).1
    exact fun hdone => hnotMem (List.mem_append_right _ (List.mem_append_right _ hdone))
  have hpath : OnPath (t.modify ps fun p => { p with remaining := rest, current := some c }) ps :=
    h.path.modify h.lt h.kept ⟨rfl, rfl, rfl⟩
  have hchild : (t.modify ps fun p => { p with remaining := rest, current := some c }).node c =
      t.node c := t.modify_node_of_ne hgt.ne' _
  constructor
  · apply forall_kept_modify h.kept h.path ⟨rfl, rfl, rfl⟩
    refine h.self.of_reduced ⟨rfl, rfl, rfl⟩ hcs hcs ?_ ?_ ?_ ?_ ?_ ?_ ?_
    · rw [hlisted]
      exact .of_eq (Proofstate.listed_of_current rfl hnotDone)
    · simp [hquery, Flag.isFresh]
    · simp [hquery]
    · simp [hquery]
    · exact fun c' hc' => h.self.remaining c' (by simp [hrem, hc'])
    · exact h.self.pending
    · exact h.self.done
  · exact hlt
  · apply OnPath.child (hchild ▸ hparent) _ _ _ hpath
    · simpa using hquery
    · simp
    · simpa using hnotDone
  · intro _ _
    rw [hchild]
    exact h.self.remaining c (by simp [hrem])

/-- All subgoals are done. -/
theorem success (h : Invariant d k t ps) (hquery : (t.node ps).status = .query)
    (hrem : (t.node ps).remaining = []) (hpend : (t.node ps).pending = []) :
    Invariant d k (t.successStep ps).1 ps := by
  have hactive : (t.node ps).active = [] := h.active (by simp [hquery]) (by simp [hquery])
  obtain ⟨cs, hcs⟩ := h.self.query hquery
  have hperm : (t.node ps).done.Perm cs := by
    have hlisted := (h.self.listed cs hcs).1
    rwa [Proofstate.listed, hactive, hrem, hpend] at hlisted
  simp only [ProofTree.successStep]
  apply invariant_modify h.kept h.path h.lt ⟨rfl, rfl, rfl⟩
  · refine h.self.of_reduced ⟨rfl, rfl, rfl⟩ hcs hcs ?_ ?_ ?_ ?_ ?_ ?_ ?_
    · rw [Proofstate.listed, Proofstate.listed, hactive]
      rfl
    · rfl
    · exact fun _ c hc => h.self.done c (hperm.mem_iff.2 hc)
    · simp
    · exact h.self.remaining
    · exact h.self.pending
    · exact h.self.done
  · exact fun _ _ => rfl

/-- What a parent on the path is doing. -/
structure Above (t : ProofTree σ φ) (ps par : ℕ) : Prop where
  lt : par < t.next
  path : OnPath t par
  query : (t.node par).status = .query
  current : (t.node par).current = some ps
  notDone : ps ∉ (t.node par).done

theorem above (h : Invariant d k t ps) (hpar : (t.node ps).parent = some par) : Above t ps par := by
  have hlt := (h.parent_lt hpar).trans h.lt
  cases h.path with
  | root hroot => rw [hroot] at hpar; cases hpar
  | child hparent hquery hcurrent hdone hpath =>
    obtain rfl := Option.some.inj (hpar.symm.trans hparent)
    exact ⟨hlt, hpath, hquery, hcurrent, hdone⟩

theorem Above.listed (h : Above t ps par) :
    (t.node par).listed =
      ps :: ((t.node par).remaining ++ ((t.node par).pending ++ (t.node par).done)) :=
  Proofstate.listed_of_current h.current h.notDone

/-- A failure is passed on. -/
theorem fail (h : Invariant d k t ps) (hpar : (t.node ps).parent = some par) :
    Invariant d k (t.modify par fun q => { q with status := .x }) par := by
  have habove := h.above hpar
  have hself := h.kept par habove.lt
  obtain ⟨cs, hcs⟩ := hself.query habove.query
  apply invariant_modify h.kept habove.path habove.lt ⟨rfl, rfl, rfl⟩
  · refine hself.of_reduced ⟨rfl, rfl, rfl⟩ hcs hcs (.refl _) rfl ?_ ?_ ?_ ?_ ?_
    · simp
    · simp
    · exact hself.remaining
    · exact hself.pending
    · exact hself.done
  · exact fun hx _ => absurd rfl hx

/-- A proof state on the path starts afresh. -/
theorem clear {n : ℕ} {status : Flag} {strategy : Option (Strategy φ)} (h : Invariant d k t ps)
    (hpath : OnPath t n) (hn : n < t.next) (hfresh : status.isFresh = true) :
    Invariant d k (t.modify n fun q => { q.clear with status := status, strategy := strategy }) n := by
  apply invariant_modify h.kept hpath hn ⟨rfl, rfl, rfl⟩
  · refine (h.kept n hn).of_none ⟨rfl, rfl, rfl⟩ rfl rfl ?_ ?_
    · rintro rfl
      cases hfresh
    · rintro rfl
      cases hfresh
  · exact fun _ _ => rfl

/-- A proof state is postponed to its parent. -/
theorem postpone (h : Invariant d k t ps) (hpar : (t.node ps).parent = some par)
    (hstar : (t.node ps).status = .star) :
    Invariant d k (t.modify par fun q => { q with pending := ps :: q.pending, current := none }) par := by
  have habove := h.above hpar
  have hself := h.kept par habove.lt
  obtain ⟨cs, hcs⟩ := hself.query habove.query
  have hactive : (t.node ps).active = [] := h.active (by simp [hstar]) (by simp [hstar])
  apply invariant_modify h.kept habove.path habove.lt ⟨rfl, rfl, rfl⟩
  · refine hself.of_reduced ⟨rfl, rfl, rfl⟩ hcs hcs ?_ ?_ ?_ ?_ ?_ ?_ ?_
    · rw [habove.listed, Proofstate.listed, Proofstate.active_eq_nil rfl]
      exact List.perm_middle
    · simp [habove.query, Flag.isFresh]
    · simp [habove.query]
    · simp [habove.query]
    · exact hself.remaining
    · simp only [List.mem_cons]
      rintro c (rfl | hc)
      · exact ⟨hactive, hstar⟩
      · exact hself.pending c hc
    · exact hself.done
  · exact fun _ _ => rfl

/-- A strategy that is postponed is replaced. -/
theorem replace {strategy : Option (Strategy φ)} (h : Invariant d k t ps)
    (hpar : (t.node ps).parent = some par) (hstrat : (t.node ps).kind = .strat) :
    Invariant d k (t.modify par fun q =>
      { q with status := .zero, strategy := strategy, current := none, application := .none }) par := by
  have habove := h.above hpar
  have hself := h.kept par habove.lt
  obtain ⟨cs, hcs⟩ := hself.query habove.query
  have hperm := (hself.listed cs hcs).1
  have hps : ps ∈ cs := hperm.mem_iff.1 (by simp [habove.listed])
  rw [hself.strat cs hcs ps hps hstrat, habove.listed, List.perm_singleton, List.cons_eq_cons] at hperm
  apply invariant_modify h.kept habove.path habove.lt ⟨rfl, rfl, rfl⟩
  · refine hself.of_none ⟨rfl, rfl, rfl⟩ rfl ?_ ?_ ?_
    · rw [Proofstate.listed, Proofstate.active_eq_nil rfl]
      exact hperm.2
    · simp
    · simp
  · exact fun _ _ => rfl

/-- A subgoal is done. -/
theorem done (h : Invariant d k t ps) (hpar : (t.node ps).parent = some par)
    (hbang : (t.node ps).status = .bang) :
    Invariant d k (t.modify par fun q => { q with done := ps :: q.done }) par := by
  have habove := h.above hpar
  have hself := h.kept par habove.lt
  obtain ⟨cs, hcs⟩ := hself.query habove.query
  have hactive : ({ t.node par with done := ps :: (t.node par).done } : Proofstate σ φ).active = [] := by
    simp [Proofstate.active, habove.current]
  apply invariant_modify h.kept habove.path habove.lt ⟨rfl, rfl, rfl⟩
  · refine hself.of_reduced ⟨rfl, rfl, rfl⟩ hcs hcs ?_ ?_ ?_ ?_ ?_ ?_ ?_
    · rw [habove.listed, Proofstate.listed, hactive, List.nil_append, ← List.append_assoc,
        ← List.append_assoc]
      exact List.perm_middle
    · simp [habove.query, Flag.isFresh]
    · simp [habove.query]
    · simp [habove.query]
    · exact hself.remaining
    · exact hself.pending
    · simp only [List.mem_cons]
      rintro c (rfl | hc)
      · exact hbang
      · exact hself.done c hc
  · exact fun _ _ => hactive

/-- The root is taken up again. -/
theorem again (h : Invariant d k t ps) (hroot : (t.node ps).parent = none)
    (hstar : (t.node ps).status = .star) :
    Invariant d k (t.modify ps fun p =>
      { p with status := .zero, strategy := subgoalStrategy p.strategy }) ps := by
  have hactive : (t.node ps).active = [] := h.active (by simp [hstar]) (by simp [hstar])
  apply invariant_modify h.kept h.path h.lt ⟨rfl, rfl, rfl⟩
  · exact { h.self with
      closed := by
        intro hclosed
        have hbang := (h.self.closed hclosed).1
        rw [hstar] at hbang
        cases hbang
      fresh := by
        intro _
        rcases h.self.star hstar with happ | ⟨hnone, hpend⟩
        · exact .inl happ
        · exact .inr ⟨h.self.root hroot, hnone, hpend⟩
      query := by simp
      bang := by simp
      star := by simp }
  · exact fun _ _ => hactive

theorem nextProofstate (h : Invariant d k t ps) (hfresh : (t.node ps).status.isFresh = false)
    (hquery : (t.node ps).status ≠ .query) :
    Invariant d k (t.nextProofstate ps).1 (t.nextProofstate ps).2 := by
  simp only [ProofTree.nextProofstate]
  split
  case h_1 hroot =>
    split_ifs with hstar
    · exact h.again hroot hstar
    · exact h
  case h_2 par hpar =>
    have habove := h.above hpar
    split
    case h_1 =>
      split_ifs
      · exact h.fail hpar
      · exact h.clear habove.path habove.lt rfl
    case h_2 =>
      split_ifs
      · exact h.fail hpar
      · exact h.clear habove.path habove.lt rfl
    case h_3 hstar =>
      split_ifs with hstrat
      · exact h.replace hpar hstrat.1
      · exact h.postpone hpar hstar
    case h_4 hbang => exact h.done hpar hbang
    case h_5 hx hxx hstar hbang =>
      cases hstatus : (t.node ps).status
      case query => exact absurd hstatus hquery
      case nil | zero => rw [hstatus] at hfresh; cases hfresh
      case x => exact absurd hstatus hx
      case xx => exact absurd hstatus hxx
      case star => exact absurd hstatus hstar
      case bang => exact absurd hstatus hbang

end Invariant

/-! ### Pending subgoals -/

/-- What `transfer-subgoal-strat` makes of a pending subgoal. -/
def Proofstate.transfer (strategy : Option (Strategy φ)) (p : Proofstate σ φ) : Proofstate σ φ :=
  if p.pending = [] then { p with strategy := subgoalStrategy strategy, status := .nil }
  else { p with strategy := strategy, status := .query }

namespace ProofTree

variable {strategy : Option (Strategy φ)} {n : ℕ}

theorem transferSubgoalStrat_snd (t : ProofTree σ φ) (cs accum : List ℕ) :
    (transferSubgoalStrat strategy t cs accum).2 = cs.reverse ++ accum := by
  induction cs generalizing t accum with
  | nil => rfl
  | cons c cs ih => simp [transferSubgoalStrat, ih]

theorem transferSubgoalStrat_next (t : ProofTree σ φ) (cs accum : List ℕ) :
    (transferSubgoalStrat strategy t cs accum).1.next = t.next := by
  induction cs generalizing t accum with
  | nil => rfl
  | cons c cs ih => simp [transferSubgoalStrat, ih]

theorem transferSubgoalStrat_of_notMem (t : ProofTree σ φ) (cs accum : List ℕ) (hn : n ∉ cs) :
    (transferSubgoalStrat strategy t cs accum).1.node n = t.node n := by
  induction cs generalizing t accum with
  | nil => rfl
  | cons c cs ih =>
    rw [List.mem_cons, not_or] at hn
    rw [transferSubgoalStrat, ih _ _ hn.2, modify_node_of_ne _ hn.1]

theorem transferSubgoalStrat_of_mem (t : ProofTree σ φ) (cs accum : List ℕ) (hcs : cs.Nodup)
    (hn : n ∈ cs) :
    (transferSubgoalStrat strategy t cs accum).1.node n = (t.node n).transfer strategy := by
  induction cs generalizing t accum with
  | nil => cases hn
  | cons c cs ih =>
    obtain ⟨hc, hcs⟩ := List.nodup_cons.1 hcs
    rw [transferSubgoalStrat]
    rcases List.mem_cons.1 hn with rfl | hn
    · rw [transferSubgoalStrat_of_notMem _ _ _ hc, modify_node_self]
      rfl
    · rw [ih _ _ hcs hn, modify_node_of_ne]
      exact fun h => hc (h ▸ hn)

end ProofTree

namespace Proofstate

variable (strategy : Option (Strategy φ)) (p : Proofstate σ φ)

theorem transfer_sameGoal : (p.transfer strategy).SameGoal p := by
  rw [transfer]
  split_ifs
  · exact ⟨rfl, rfl, rfl⟩
  · exact ⟨rfl, rfl, rfl⟩

theorem transfer_active : (p.transfer strategy).active = p.active := by
  rw [transfer]
  split_ifs
  · rfl
  · rfl

end Proofstate

namespace Invariant

/-- A pending subgoal is taken up again. -/
theorem transfer (strategy : Option (Strategy φ)) (h : Invariant d k t ps)
    (hc : c ∈ (t.node ps).pending) :
    Kept d k t.next t.node c ((t.node c).transfer strategy) := by
  obtain ⟨-, hlt, -⟩ := h.self.made_of_listed (Proofstate.pending_subset_listed hc)
  have hkept := h.kept c hlt
  obtain ⟨-, hstar⟩ := h.self.pending c hc
  rw [Proofstate.transfer]
  split_ifs with hpend
  · have happ : (t.node c).application = .none := by
      rcases hkept.star hstar with happ | ⟨-, hne⟩
      · exact happ
      · exact absurd hpend hne
    exact hkept.of_none ⟨rfl, rfl, rfl⟩ happ (hkept.listed_eq_nil_of_none happ) (by simp) (by simp)
  · obtain ⟨p, hp⟩ := List.exists_mem_of_ne_nil _ hpend
    obtain ⟨cs, hcs, -⟩ := hkept.mem_of_listed (Proofstate.pending_subset_listed hp)
    refine hkept.of_reduced ⟨rfl, rfl, rfl⟩ hcs hcs (.refl _) rfl ?_ ?_ ?_ ?_ ?_
    · simp
    · simp
    · exact hkept.remaining
    · exact hkept.pending
    · exact hkept.done

/-- All pending subgoals are. -/
theorem resume {t' : ProofTree σ φ} {strategy strategy' : Option (Strategy φ)}
    (h : Invariant d k t ps) (hquery : (t.node ps).status = .query)
    (hrem : (t.node ps).remaining = []) (hnext : t'.next = t.next)
    (hself : t'.node ps =
      { t.node ps with
        remaining := (t.node ps).pending.reverse, pending := [], strategy := strategy' })
    (hpending : ∀ c ∈ (t.node ps).pending, t'.node c = (t.node c).transfer strategy)
    (hoff : ∀ n ≠ ps, n ∉ (t.node ps).pending → t'.node n = t.node n) : Invariant d k t' ps := by
  have hactive : (t.node ps).active = [] := h.active (by simp [hquery]) (by simp [hquery])
  obtain ⟨cs, hcs⟩ := h.self.query hquery
  have hnodup := (h.self.listed cs hcs).1.nodup_iff.2 (h.self.listed cs hcs).2
  rw [Proofstate.listed, hactive, hrem, List.nil_append, List.nil_append] at hnodup
  have hmade : ∀ c ∈ (t.node ps).pending, ps < c ∧ c < t.next ∧ (t.node c).parent = some ps :=
    fun c hc => h.self.made_of_listed (Proofstate.pending_subset_listed hc)
  have hsame : ∀ n, (t'.node n).SameGoal (t.node n) := by
    intro n
    by_cases hn : n = ps
    · subst hn
      rw [hself]
      exact ⟨rfl, rfl, rfl⟩
    · by_cases hmem : n ∈ (t.node ps).pending
      · rw [hpending n hmem]
        exact Proofstate.transfer_sameGoal ..
      · rw [hoff n hn hmem]
        exact .refl _
  have hsub : ∀ n c, n ≠ ps → c ≠ ps → (t.node c).parent = some n → t'.node c = t.node c := by
    intro n c hn hc hparent
    refine hoff c hc fun hmem => hn ?_
    exact Option.some.inj (hparent.symm.trans (hmade c hmem).2.2)
  constructor
  · intro n hn
    rw [hnext] at hn ⊢
    by_cases heq : n = ps
    · subst heq
      rw [hself]
      have hkept : Kept d k t.next t.node n { t.node n with
          remaining := (t.node n).pending.reverse, pending := [], strategy := strategy' } := by
        refine h.self.of_reduced ⟨rfl, rfl, rfl⟩ hcs hcs ?_ ?_ ?_ ?_ ?_ ?_ ?_
        · change ((t.node n).active ++ ((t.node n).pending.reverse ++ (t.node n).done)).Perm _
          rw [Proofstate.listed, hactive, hrem]
          exact (List.reverse_perm _).append_right _
        · simp [hquery, Flag.isFresh]
        · simp [hquery]
        · simp [hquery]
        · exact fun c hc => (h.self.pending c (List.mem_reverse.1 hc)).1
        · simp
        · exact h.self.done
      apply hkept.congr le_rfl
      · exact fun c _ _ => hsame c
      · intro c hc
        rw [hpending c (List.mem_reverse.1 hc)]
        exact Proofstate.transfer_active ..
      · intro c hc
        have hdone : c ∈ (t.node n).done := by simpa using hc
        apply hoff
        · exact (h.self.made_of_listed (Proofstate.done_subset_listed hdone)).1.ne'
        · exact fun hmem => (List.disjoint_of_nodup_append hnodup) hmem hdone
      · simp [hquery]
    · by_cases hmem : n ∈ (t.node ps).pending
      · rw [hpending n hmem]
        have hstar := (h.self.pending n hmem).2
        have hchild : ∀ c, (t.node c).parent = some n → t'.node c = t.node c := by
          intro c hparent
          refine hsub n c heq ?_ hparent
          rintro rfl
          rw [h.path.status_parent hparent] at hstar
          cases hstar
        have hkept := h.transfer strategy hmem
        apply hkept.congr le_rfl
        · exact fun c _ _ => hsame c
        · intro c hc
          rw [hchild c (hkept.made_of_listed (Proofstate.remaining_subset_listed hc)).2.2]
        · intro c hc
          exact hchild c (hkept.made_of_listed (List.mem_append_right _ (List.mem_append_right _ hc))).2.2
        · intro _ cs hcs c hc
          exact hchild c (hkept.made cs hcs c hc).2.2
      · rw [hoff n heq hmem]
        have hkept := h.kept n hn
        apply hkept.congr le_rfl
        · exact fun c _ _ => hsame c
        · intro c hc
          rw [hsub n c heq _ (hkept.made_of_listed (Proofstate.remaining_subset_listed hc)).2.2]
          rintro rfl
          exact h.path.notMem_listed hkept (List.mem_append_left _ hc)
        · intro c hc
          refine hsub n c heq ?_
            (hkept.made_of_listed (List.mem_append_right _ (List.mem_append_right _ hc))).2.2
          rintro rfl
          exact h.path.notMem_listed hkept (List.mem_append_right _ hc)
        · intro hbang cs hcs c hc
          have hparent := (hkept.made cs hcs c hc).2.2
          refine hsub n c heq ?_ hparent
          rintro rfl
          rw [h.path.status_parent hparent] at hbang
          cases hbang
  · rw [hnext]
    exact h.lt
  · apply h.path.congr
    · exact fun m par hm hle => (h.kept m (hle.trans_lt h.lt)).parent_lt par hm
    · exact fun m hm => hoff m hm.ne fun hmem => absurd (hmade m hmem).1 (not_lt.2 hm.le)
    · exact (hsame ps).parent
  · intro _ _
    rw [hself]
    exact hactive

theorem postProcessingStep (h : Invariant d k t ps) (hquery : (t.node ps).status = .query)
    (hrem : (t.node ps).remaining = []) (hpend : (t.node ps).pending ≠ []) :
    Invariant d k (t.postProcessingStep ps).1 (t.postProcessingStep ps).2 := by
  have hactive : (t.node ps).active = [] := h.active (by simp [hquery]) (by simp [hquery])
  obtain ⟨cs, hcs⟩ := h.self.query hquery
  simp only [ProofTree.postProcessingStep]
  split_ifs with hnone
  · rw [Option.isNone_iff_eq_none] at hnone
    have hstar : Invariant d k (t.modify ps fun p => { p with status := .star }) ps := by
      apply invariant_modify h.kept h.path h.lt ⟨rfl, rfl, rfl⟩
      · refine h.self.of_reduced ⟨rfl, rfl, rfl⟩ hcs hcs (.refl _) rfl ?_ ?_ ?_ ?_ ?_
        · simp
        · exact fun _ => ⟨hnone, hpend⟩
        · exact h.self.remaining
        · exact h.self.pending
        · exact h.self.done
      · exact fun _ _ => hactive
    apply hstar.nextProofstate
    · simp [Flag.isFresh]
    · simp
  · have hnodup := (h.self.listed cs hcs).1.nodup_iff.2 (h.self.listed cs hcs).2
    rw [Proofstate.listed, hactive, hrem, List.nil_append, List.nil_append] at hnodup
    have hgt : ∀ c ∈ (t.node ps).pending, ps < c :=
      fun c hc => (h.self.made_of_listed (Proofstate.pending_subset_listed hc)).1
    have hps : ps ∉ (t.node ps).pending := fun hmem => (hgt ps hmem).ne rfl
    apply h.resume hquery hrem
    · exact ProofTree.transferSubgoalStrat_next ..
    · rw [ProofTree.modify_node_self, ProofTree.transferSubgoalStrat_snd,
        ProofTree.transferSubgoalStrat_of_notMem _ _ _ hps, List.append_nil]
    · intro c hc
      rw [ProofTree.modify_node_of_ne _ (hgt c hc).ne']
      exact ProofTree.transferSubgoalStrat_of_mem _ _ _ hnodup.of_append_left hc
    · intro n hn hmem
      rw [ProofTree.modify_node_of_ne _ hn]
      exact ProofTree.transferSubgoalStrat_of_notMem _ _ _ hmem

end Invariant

end PVS.Prover
