import PVS.Assert.QuantElim

/-! What the substitution of the equated variables consists of. -/

namespace PVS.Assert.QuantSyntax

open Library.Telescope

variable {X V T Ty F : Type} [DecidableEq X] (S : QuantSyntax X V T Ty F)

/-- A term mentions neither its own variable nor one that comes before it. -/
def Triangular : List (X × T) → Prop
  | [] => True
  | (var, term) :: substs =>
    var ∉ substs.map (·.1) ∧ (∀ pair ∈ (var, term) :: substs, var ∉ S.freevars pair.2) ∧
      Triangular substs

theorem Triangular.nodup {substs : List (X × T)} (h : S.Triangular substs) :
    (substs.map (·.1)).Nodup := by
  induction substs with
  | nil => exact List.nodup_nil
  | cons pair substs ih => exact List.nodup_cons.2 ⟨h.1, ih h.2.2⟩

variable {S}

theorem of_mem_collectSubstEqualities {bindings : List X} {forms : List F} {pair : X × T}
    (h : pair ∈ S.collectSubstEqualities bindings forms) :
    pair.1 ∈ bindings ∧ ∃ φ ∈ forms, S.freevars pair.2 ⊆ S.formFreevars φ ∧
      ∀ ρ, S.holds φ ρ → ρ pair.1 = S.eval pair.2 ρ := by
  induction forms with
  | nil => cases h
  | cons atom forms ih =>
    have hrest : pair ∈ S.collectSubstEqualities bindings forms → pair.1 ∈ bindings ∧
        ∃ φ ∈ atom :: forms, S.freevars pair.2 ⊆ S.formFreevars φ ∧
          ∀ ρ, S.holds φ ρ → ρ pair.1 = S.eval pair.2 ρ := by
      intro h
      obtain ⟨hmem, φ, hφ, hpair⟩ := ih h
      exact ⟨hmem, φ, List.mem_cons_of_mem _ hφ, hpair⟩
    rw [collectSubstEqualities] at h
    cases hatom : S.equality atom with
    | none => exact hrest (by simpa [hatom] using h)
    | some args =>
      obtain ⟨args1, args2⟩ := args
      obtain ⟨hfree1, hfree2⟩ := S.freevars_equality hatom
      have heq := S.holds_equality hatom
      simp only [hatom] at h
      split at h
      next bvar1 hvar =>
        obtain ⟨hvar, hbound⟩ := Option.filter_eq_some_iff.1 hvar
        obtain rfl | h := List.mem_cons.1 h
        · refine ⟨of_decide_eq_true hbound, atom, List.mem_cons_self .., hfree2, fun ρ hρ => ?_⟩
          rw [← S.eval_variable hvar ρ]
          exact (heq ρ).1 hρ
        · exact hrest h
      next =>
        split at h
        next bvar2 hvar =>
          obtain ⟨hvar, hbound⟩ := Option.filter_eq_some_iff.1 hvar
          obtain rfl | h := List.mem_cons.1 h
          · refine ⟨of_decide_eq_true hbound, atom, List.mem_cons_self .., hfree1, fun ρ hρ => ?_⟩
            rw [← S.eval_variable hvar ρ]
            exact ((heq ρ).1 hρ).symm
          · exact hrest h
        next => exact hrest h

theorem orderSubstEqualities_spec (substs accum : List (X × T)) (haccum : S.Triangular accum)
    (hfree : ∀ pair ∈ accum, ∀ p ∈ substs, p.1 ∉ S.freevars pair.2) :
    S.Triangular (S.orderSubstEqualities substs accum) ∧
      S.orderSubstEqualities substs accum ⊆ accum ++ substs := by
  induction substs, accum using orderSubstEqualities.induct S with
  | case1 substs accum first hfirst ih =>
    obtain ⟨var, term⟩ := first
    have hmem := List.mem_of_find?_eq_some hfirst
    have hready := List.find?_some hfirst
    simp only [ready, Bool.and_eq_true, Bool.not_eq_true', List.any_eq_false, decide_eq_true_eq,
      List.all_eq_true, Bool.not_eq_true'] at hready
    obtain ⟨hnew, hterm⟩ := hready
    have hsub := List.eraseP_subset (p := S.ready substs accum) (l := substs)
    have hterm : ∀ p ∈ substs, p.1 ∉ S.freevars term := fun p hp hx => hterm _ hx p hp rfl
    rw [orderSubstEqualities, hfirst]
    have hvar : var ∉ accum.map (·.1) := by
      intro h
      obtain ⟨p, hp, hpvar⟩ := List.mem_map.1 h
      exact hnew p hp hpvar
    have hown : ∀ pair ∈ (var, term) :: accum, var ∉ S.freevars pair.2 := by
      rw [List.forall_mem_cons]
      exact ⟨hterm _ hmem, fun p hp => hfree p hp _ hmem⟩
    have hlater : ∀ pair ∈ (var, term) :: accum,
        ∀ p ∈ substs.eraseP (S.ready substs accum), p.1 ∉ S.freevars pair.2 := by
      rw [List.forall_mem_cons]
      exact ⟨fun p hp => hterm p (hsub hp), fun p hp p' hp' => hfree p hp p' (hsub hp')⟩
    obtain ⟨htri, hincl⟩ := ih ⟨hvar, hown, haccum⟩ hlater
    refine ⟨htri, List.Subset.trans hincl fun p hp => ?_⟩
    simp only [List.mem_append, List.mem_cons] at hp ⊢
    obtain (rfl | hp) | hp := hp
    · exact Or.inr hmem
    · exact Or.inl hp
    · exact Or.inr (hsub hp)
  | case2 substs accum hfirst =>
    rw [orderSubstEqualities, hfirst]
    exact ⟨haccum, List.subset_append_left ..⟩

theorem mem_bindingsFreevars {bindings : List X} {b x : X} (hb : b ∈ bindings)
    (hx : x ∈ S.tyFreevars (S.type b)) (hnot : x ∉ bindings) :
    x ∈ S.bindingsFreevars bindings := by
  induction bindings with
  | nil => cases hb
  | cons c bindings ih =>
    rw [List.mem_cons, not_or] at hnot
    refine List.mem_filter.2 ⟨?_, decide_eq_true hnot.1⟩
    obtain rfl | hb := List.mem_cons.1 hb
    · exact List.mem_append_left _ hx
    · exact List.mem_append_right _ (ih hb hnot.2)

theorem of_mem_bindingsFreevars {bindings : List X} {x : X} (hx : x ∈ S.bindingsFreevars bindings) :
    ∃ b ∈ bindings, x ∈ S.tyFreevars (S.type b) := by
  induction bindings with
  | nil => cases hx
  | cons c bindings ih =>
    obtain hx | hx := List.mem_append.1 (List.mem_filter.1 hx).1
    · exact ⟨c, List.mem_cons_self .., hx⟩
    · obtain ⟨b, hb, hx⟩ := ih hx
      exact ⟨b, List.mem_cons_of_mem _ hb, hx⟩

theorem not_mem_bindingsFreevars {bindings : List X}
    (horder : InOrder (fun b => S.tyFreevars (S.type b)) bindings) {x : X} (hx : x ∈ bindings) :
    x ∉ S.bindingsFreevars bindings := by
  induction bindings with
  | nil => cases hx
  | cons c bindings ih =>
    intro h
    obtain ⟨h, hne⟩ := List.mem_filter.1 h
    obtain hbound | hx := List.mem_cons.1 hx
    · exact of_decide_eq_true hne hbound
    · obtain h | h := List.mem_append.1 h
      · exact horder.1 x (List.mem_cons_of_mem _ hx) h
      · exact ih horder.2 hx h

/-- Bindings are put back in front, until no type mentions a variable that is eliminated. -/
theorem keepBindings_spec (substs : List (X × T)) (newBindings freevars : List X)
    (hnodup : (substs.map (·.1) ++ newBindings).Nodup)
    (hfree : ∀ pair ∈ substs, ∀ b ∈ newBindings,
      pair.1 ∈ S.tyFreevars (S.type b) → pair.1 ∈ freevars) :
    ∃ back, S.keepBindings substs newBindings freevars = back ++ newBindings ∧
      back ⊆ substs.map (·.1) ∧ (back ++ newBindings).Nodup ∧
      ∀ pair ∈ substs, pair.1 ∉ back →
        ∀ b ∈ back ++ newBindings, pair.1 ∉ S.tyFreevars (S.type b) := by
  induction hlen : substs.length using Nat.strongRecOn generalizing substs newBindings freevars with
  | ind n ih =>
    rw [keepBindings]
    generalize hkeep : (fun pair : X × T => decide (pair.1 ∈ freevars)) = keep
    have hkeep : ∀ pair, keep pair = true ↔ pair.1 ∈ freevars := fun pair => by
      rw [← hkeep, decide_eq_true_eq]
    obtain ⟨hkeys, hnew, hdisj⟩ := List.nodup_append.1 hnodup
    by_cases hkeeps : (substs.filter keep).isEmpty
    · rw [dif_pos hkeeps]
      refine ⟨[], rfl, List.nil_subset _, hnew, ?_⟩
      intro pair hpair _ b hb hx
      have hmem := List.mem_filter.2 ⟨hpair, (hkeep pair).2 (hfree pair hpair b hb hx)⟩
      rw [List.isEmpty_iff.1 hkeeps] at hmem
      cases hmem
    · rw [dif_neg hkeeps]
      generalize hmore : (substs.filter keep).map (·.1) = more
      have hmem_more : ∀ {x}, x ∈ more ↔ ∃ pair ∈ substs, keep pair = true ∧ pair.1 = x := by
        intro x
        rw [← hmore, List.mem_map]
        simp only [List.mem_filter, and_assoc]
      have hperm := S.setDifference_perm substs keep
      have hrest : ∀ {pair}, pair ∈ S.setDifference substs keep ↔
          pair ∈ substs ∧ keep pair = false := by
        intro pair
        rw [hperm.mem_iff, List.mem_filter, Bool.not_eq_true']
      have hlt : (S.setDifference substs keep).length < n :=
        hlen ▸ S.length_setDifference_lt (by simpa using hkeeps)
      have hsplit : ((S.setDifference substs keep).map (·.1) ++ more).Perm (substs.map (·.1)) := by
        rw [← hmore, ← List.map_append]
        refine List.Perm.map _ ?_
        exact (hperm.append_right _).trans (List.perm_append_comm.trans
          (List.filter_append_perm keep substs))
      have hnodup' : ((S.setDifference substs keep).map (·.1) ++ (more ++ newBindings)).Nodup := by
        rw [← List.append_assoc]
        exact (hsplit.append_right newBindings).nodup_iff.2 hnodup
      have hnotmore : ∀ pair ∈ S.setDifference substs keep, pair.1 ∉ more := fun pair hpair h =>
        (List.nodup_append.1 hnodup').2.2 _ (List.mem_map_of_mem hpair) _
          (List.mem_append_left _ h) rfl
      obtain ⟨back, hback, hsub, hnodup_back, hclosed⟩ := ih _ hlt (S.setDifference substs keep)
        (more ++ newBindings) (S.bindingsFreevars more ++ freevars) hnodup' (by
          intro pair hpair b hb hx
          obtain hb | hb := List.mem_append.1 hb
          · exact List.mem_append_left _ (mem_bindingsFreevars hb hx (hnotmore pair hpair))
          · exact List.mem_append_right _ (hfree pair (hrest.1 hpair).1 b hb hx)) rfl
      refine ⟨back ++ more, ?_, ?_, ?_, ?_⟩
      · rw [hback, List.append_assoc]
      · refine List.append_subset.2 ⟨?_, fun x hx => hsplit.subset (List.mem_append_right _ hx)⟩
        exact fun x hx => hsplit.subset (List.mem_append_left _ (hsub hx))
      · rwa [List.append_assoc]
      · intro pair hpair hnot b hb
        rw [List.mem_append, not_or] at hnot
        rw [List.append_assoc] at hb
        refine hclosed pair (hrest.2 ⟨hpair, ?_⟩) hnot.1 b hb
        rw [← Bool.not_eq_true]
        exact fun hk => hnot.2 (hmem_more.2 ⟨pair, hpair, hk, rfl⟩)

/-- The terms mention no variable that is eliminated. -/
theorem selfApplySubstitution_keys (newBindings : List X) (substs : List (X × T)) :
    (S.selfApplySubstitution newBindings substs).map (·.1) =
      (substs.map (·.1)).filter (· ∉ newBindings) := by
  induction substs with
  | nil => rfl
  | cons pair substs ih =>
    rw [selfApplySubstitution, List.map_cons, List.filter_cons]
    by_cases hvar : pair.1 ∈ newBindings
    · simp only [hvar, ↓reduceIte, ih, not_true, decide_false, Bool.false_eq_true]
    · simp only [hvar, ↓reduceIte, List.map_cons, ih, not_false_eq_true, decide_true]

theorem of_mem_freevars_selfApply {newBindings : List X} {substs : List (X × T)} {pair : X × T}
    {x : X} (hpair : pair ∈ S.selfApplySubstitution newBindings substs)
    (hx : x ∈ S.freevars pair.2) : ∃ p ∈ substs, x ∈ S.freevars p.2 := by
  induction substs generalizing pair with
  | nil => cases hpair
  | cons p substs ih =>
    have hrest : ∀ {pair}, pair ∈ S.selfApplySubstitution newBindings substs →
        x ∈ S.freevars pair.2 → ∃ q ∈ p :: substs, x ∈ S.freevars q.2 := by
      intro pair hpair hx
      obtain ⟨q, hq, hx⟩ := ih hpair hx
      exact ⟨q, List.mem_cons_of_mem _ hq, hx⟩
    rw [selfApplySubstitution] at hpair
    split at hpair
    · exact hrest hpair hx
    · obtain rfl | hpair := List.mem_cons.1 hpair
      · obtain ⟨hx, -⟩ | ⟨q, hq, hx⟩ := S.freevars_substit hx
        · exact ⟨p, List.mem_cons_self .., hx⟩
        · exact hrest hq hx
      · exact hrest hpair hx

theorem selfApplySubstitution_closed {substs : List (X × T)} (h : S.Triangular substs)
    (newBindings : List X) {pair q : X × T}
    (hpair : pair ∈ S.selfApplySubstitution newBindings substs)
    (hq : q ∈ S.selfApplySubstitution newBindings substs) : q.1 ∉ S.freevars pair.2 := by
  induction substs generalizing pair q with
  | nil => cases hpair
  | cons p substs ih =>
    obtain ⟨-, hown, h⟩ := h
    have hvar : ∀ {pair}, pair ∈ S.selfApplySubstitution newBindings substs →
        p.1 ∉ S.freevars pair.2 := by
      intro pair hpair hx
      obtain ⟨p', hp', hx⟩ := of_mem_freevars_selfApply hpair hx
      exact hown p' (List.mem_cons_of_mem _ hp') hx
    rw [selfApplySubstitution] at hpair hq
    split at hpair
    · rw [if_pos ‹_›] at hq
      exact ih h hpair hq
    · rw [if_neg ‹_›] at hq
      have hterm : ∀ {q}, q ∈ S.selfApplySubstitution newBindings substs →
          q.1 ∉ S.freevars (S.substit p.2 (S.selfApplySubstitution newBindings substs)) := by
        intro q hq hx
        obtain ⟨-, hnone⟩ | ⟨p', hp', hx⟩ := S.freevars_substit hx
        · rw [List.lookup_eq_none_iff] at hnone
          exact absurd (hnone q hq) (by simp)
        · exact ih h hp' hq hx
      obtain rfl | hpair := List.mem_cons.1 hpair
      · obtain rfl | hq := List.mem_cons.1 hq
        · intro hx
          obtain ⟨hx, -⟩ | ⟨p', hp', hx⟩ := S.freevars_substit hx
          · exact hown p (List.mem_cons_self ..) hx
          · exact hvar hp' hx
        · exact hterm hq
      · obtain rfl | hq := List.mem_cons.1 hq
        · exact hvar hpair
        · exact ih h hpair hq

variable (S) in
/-- Values that satisfy the equations. -/
def Consistent (substs : List (X × T)) (ρ : X → V) : Prop :=
  ∀ pair ∈ substs, ρ pair.1 = S.eval pair.2 ρ

theorem Consistent.substEnv_eq {substs : List (X × T)} {ρ : X → V} (h : S.Consistent substs ρ) :
    substEnv S.eval substs ρ = ρ := by
  funext x
  rw [substEnv]
  split
  next t hx =>
    obtain ⟨l₁, l₂, rfl, -⟩ := List.lookup_eq_some_iff.1 hx
    exact (h (x, t) (by simp)).symm
  next => rfl

theorem Consistent.selfApply {substs : List (X × T)} {ρ : X → V} (h : S.Consistent substs ρ)
    (newBindings : List X) :
    S.Consistent (S.selfApplySubstitution newBindings substs) ρ := by
  induction substs with
  | nil => exact h
  | cons pair substs ih =>
    obtain ⟨hpair, hsubsts⟩ := List.forall_mem_cons.1 h
    have hrest := ih hsubsts
    rw [selfApplySubstitution]
    split
    · exact hrest
    · refine List.forall_mem_cons.2 ⟨?_, hrest⟩
      rw [S.eval_substit, hrest.substEnv_eq]
      exact hpair

theorem substEnv_of_not_mem {substs : List (X × T)} {x : X} (hx : ∀ pair ∈ substs, pair.1 ≠ x)
    (ρ : X → V) : substEnv S.eval substs ρ x = ρ x := by
  rw [substEnv, List.lookup_eq_none_iff.2 fun pair hpair => by simpa using (hx pair hpair).symm]

/-- The values that are prescribed satisfy the equations. -/
theorem consistent_substEnv {substs : List (X × T)} (hnodup : (substs.map (·.1)).Nodup)
    (hclosed : ∀ pair ∈ substs, ∀ q ∈ substs, q.1 ∉ S.freevars pair.2) (ρ : X → V) :
    S.Consistent substs (substEnv S.eval substs ρ) := by
  intro pair hpair
  have hterm : S.eval pair.2 (substEnv S.eval substs ρ) = S.eval pair.2 ρ :=
    S.eval_congr fun x hx =>
      substEnv_of_not_mem (fun q hq h => hclosed pair hpair q hq (h ▸ hx)) ρ
  rw [hterm, substEnv]
  have hlookup : substs.lookup pair.1 = some pair.2 := by
    obtain ⟨l₁, l₂, rfl⟩ := List.append_of_mem hpair
    refine List.lookup_eq_some_iff.2 ⟨l₁, l₂, rfl, fun q hq => ?_⟩
    rw [List.map_append, List.nodup_append] at hnodup
    have hne := hnodup.2.2 q.1 (List.mem_map_of_mem hq) pair.1 (by simp)
    simpa using hne.symm
  rw [hlookup]

theorem holds_tcAlist {substs outAlist : List (X × T)} {ρ : X → V}
    (hsubsts : S.Consistent substs ρ) (hout : S.Consistent outAlist ρ)
    (htyped : ∀ pair ∈ substs, ∀ x ∈ S.freevars pair.2, S.mem (S.type x) ρ (ρ x)) :
    (∀ φ ∈ S.tcAlist substs outAlist, S.holds φ ρ) ↔
      ∀ pair ∈ substs, S.mem (S.type pair.1) ρ (ρ pair.1) := by
  induction substs generalizing outAlist with
  | nil => simp [tcAlist]
  | cons pair substs ih =>
    obtain ⟨hpair, hsubsts⟩ := List.forall_mem_cons.1 hsubsts
    obtain ⟨hterm, htyped⟩ := List.forall_mem_cons.1 htyped
    rw [tcAlist, List.forall_mem_append, List.forall_mem_cons,
      ih hsubsts (List.forall_mem_cons.2 ⟨hpair, hout⟩) htyped, S.holds_tccs _ _ _ hterm,
      S.mem_tySubstit, hout.substEnv_eq, ← hpair, and_comm]

theorem of_mem_freevars_tcAlist {substs outAlist : List (X × T)} {φ : F} {x : X}
    (hφ : φ ∈ S.tcAlist substs outAlist) (hx : x ∈ S.formFreevars φ) :
    (∃ pair ∈ substs ++ outAlist, x ∈ S.freevars pair.2) ∨
      ∃ pair ∈ substs, x ∈ S.tyFreevars (S.type pair.1) := by
  induction substs generalizing outAlist with
  | nil => cases hφ
  | cons p substs ih =>
    rw [tcAlist, List.mem_append] at hφ
    obtain hφ | hφ := hφ
    · obtain ⟨pair, hpair, hx⟩ | ⟨pair, hpair, hx⟩ := ih hφ
      · refine Or.inl ⟨pair, ?_, hx⟩
        simp only [List.mem_append, List.mem_cons] at hpair ⊢
        tauto
      · exact Or.inr ⟨pair, List.mem_cons_of_mem _ hpair, hx⟩
    · obtain hx | hx := S.freevars_tccs hφ hx
      · exact Or.inl ⟨p, List.mem_append_left _ (List.mem_cons_self ..), hx⟩
      · obtain ⟨hx, -⟩ | ⟨pair, hpair, hx⟩ := S.freevars_tySubstit hx
        · exact Or.inr ⟨p, List.mem_cons_self .., hx⟩
        · exact Or.inl ⟨pair, List.mem_append_right _ hpair, hx⟩

end PVS.Assert.QuantSyntax
