import PVS.Assert.QuantElimSubst

/-! Eliminating the equated variables keeps the meaning where no variable is left behind. -/

namespace PVS.Assert

open Library.Telescope

variable {X V T Ty F : Type} [DecidableEq X] {S : QuantSyntax X V T Ty F}

variable (S) in
/-- A typechecked quantifier. -/
structure QuantExpr where
  bindings : List X
  body : F
  nodup : bindings.Nodup
  inOrder : InOrder (fun b => S.tyFreevars (S.type b)) bindings
  outer : ∀ x ∈ S.quantFreevars bindings body, ∀ b ∈ bindings, b ∉ S.tyFreevars (S.type x)

namespace QuantSyntax

variable (S) in
/-- The values of the free variables are in their types. -/
def Typed (vars : List X) (ρ : X → V) : Prop := ∀ x ∈ vars, S.mem (S.type x) ρ (ρ x)

variable (S) in
def holdsQuant : Quantifier → List X → F → (X → V) → Prop
  | .exist, bindings, body => existsAll (fun b => S.mem (S.type b)) bindings (S.holds body)
  | .forAll, bindings, body => forallAll (fun b => S.mem (S.type b)) bindings (S.holds body)

variable (S) in
def resultHolds (q : Quantifier) : QuantResult X F → (X → V) → Prop
  | .formula φ => S.holds φ
  | .quant bindings body => S.holdsQuant q bindings body

/-- Each type mentions earlier bindings only. -/
def resultInOrder (S : QuantSyntax X V T Ty F) : QuantResult X F → Prop
  | .formula _ => True
  | .quant bindings _ => InOrder (fun b => S.tyFreevars (S.type b)) bindings

variable (S) in
/-- Values that decide the quantifier. -/
def Decides : Quantifier → F → (X → V) → Prop
  | .exist, φ, ρ => S.holds φ ρ
  | .forAll, φ, ρ => ¬ S.holds φ ρ

theorem holdsQuant_exist (bindings : List X) (φ : F) (ρ : X → V) :
    S.holdsQuant .exist bindings φ ρ ↔
      existsAll (fun b => S.mem (S.type b)) bindings (S.Decides .exist φ) ρ :=
  Iff.rfl

theorem holdsQuant_forAll (bindings : List X) (φ : F) (ρ : X → V) :
    S.holdsQuant .forAll bindings φ ρ ↔
      ¬ existsAll (fun b => S.mem (S.type b)) bindings (S.Decides .forAll φ) ρ :=
  forallAll_iff _ bindings _ ρ

theorem consistent_of_decides {q : Quantifier} {bindings : List X} {φ : F} {ρ : X → V}
    (h : S.Decides q φ ρ) : S.Consistent (S.collectSubstEqualities bindings (S.equations q φ)) ρ := by
  intro pair hpair
  obtain ⟨-, ψ, hψ, -, heq⟩ := of_mem_collectSubstEqualities hpair
  refine heq ρ ?_
  cases q with
  | exist => exact (S.holds_conjuncts φ ρ).1 h ψ hψ
  | forAll =>
    obtain ⟨χ, hχ, hneg⟩ := List.mem_filterMap.1 hψ
    by_contra hnot
    exact h ((S.holds_disjuncts φ ρ).2 ⟨χ, hχ, (S.holds_negation hneg ρ).2 hnot⟩)

theorem freevars_equations {q : Quantifier} {φ ψ : F} (h : ψ ∈ S.equations q φ) :
    S.formFreevars ψ ⊆ S.formFreevars φ := by
  cases q with
  | exist => exact S.freevars_conjuncts h
  | forAll =>
    obtain ⟨χ, hχ, hneg⟩ := List.mem_filterMap.1 h
    exact List.Subset.trans (S.freevars_negation hneg) (S.freevars_disjuncts hχ)

section Substs

variable (q : Quantifier) (bindings : List X) (body : F)

theorem orderedSubsts_triangular : S.Triangular (S.orderedSubsts q bindings body) :=
  (orderSubstEqualities_spec _ [] trivial (by simp)).1

theorem orderedSubsts_subset : S.orderedSubsts q bindings body ⊆
    S.collectSubstEqualities bindings (S.equations q body) :=
  (orderSubstEqualities_spec _ [] trivial (by simp)).2

theorem orderedSubsts_keys : (S.orderedSubsts q bindings body).map (·.1) ⊆ bindings := by
  intro x hx
  obtain ⟨pair, hpair, rfl⟩ := List.mem_map.1 hx
  exact (of_mem_collectSubstEqualities (orderedSubsts_subset q bindings body hpair)).1

theorem freevars_orderedSubsts {pair : X × T} (hpair : pair ∈ S.orderedSubsts q bindings body) :
    S.freevars pair.2 ⊆ S.formFreevars body := by
  obtain ⟨-, φ, hφ, hfree, -⟩ :=
    of_mem_collectSubstEqualities (orderedSubsts_subset q bindings body hpair)
  exact List.Subset.trans hfree (freevars_equations hφ)

theorem freevars_eliminated {pair : X × T} (hpair : pair ∈ S.eliminated q bindings body) :
    S.freevars pair.2 ⊆ S.formFreevars body := by
  intro x hx
  obtain ⟨p, hp, hx⟩ := of_mem_freevars_selfApply hpair hx
  exact freevars_orderedSubsts q bindings body hp hx

theorem eliminated_keys : (S.eliminated q bindings body).map (·.1) =
    ((S.orderedSubsts q bindings body).map (·.1)).filter (· ∉ S.newBindings q bindings body) :=
  selfApplySubstitution_keys _ _

theorem eliminated_closed {pair p : X × T} (hpair : pair ∈ S.eliminated q bindings body)
    (hp : p ∈ S.eliminated q bindings body) : p.1 ∉ S.freevars pair.2 :=
  selfApplySubstitution_closed (orderedSubsts_triangular q bindings body) _ hpair hp

theorem eliminated_nodup : ((S.eliminated q bindings body).map (·.1)).Nodup := by
  rw [eliminated_keys]
  exact (orderedSubsts_triangular q bindings body).nodup.filter _

theorem newBindings_spec (hnodup : bindings.Nodup) :
    ∃ back, S.newBindings q bindings body = back ++ S.staying q bindings body ∧
      back ⊆ (S.orderedSubsts q bindings body).map (·.1) ∧
      (back ++ S.staying q bindings body).Nodup ∧
      ∀ pair ∈ S.orderedSubsts q bindings body, pair.1 ∉ back →
        ∀ b ∈ back ++ S.staying q bindings body, pair.1 ∉ S.tyFreevars (S.type b) := by
  have hstaying : ∀ {x}, x ∈ S.staying q bindings body →
      x ∉ (S.orderedSubsts q bindings body).map (·.1) := fun hx =>
    of_decide_eq_true (List.mem_filter.1 hx).2
  refine keepBindings_spec _ _ _ ?_ ?_
  · refine List.nodup_append.2 ⟨(orderedSubsts_triangular q bindings body).nodup,
      hnodup.filter _, ?_⟩
    rintro x hx y hy rfl
    exact hstaying hy hx
  · intro pair hpair b hb hx
    refine mem_bindingsFreevars hb hx fun h => hstaying h (List.mem_map_of_mem hpair)

theorem newBindings_nodup (hnodup : bindings.Nodup) : (S.newBindings q bindings body).Nodup := by
  obtain ⟨back, heq, -, hback, -⟩ := newBindings_spec (S := S) q bindings body hnodup
  rwa [heq]

theorem newBindings_subset (hnodup : bindings.Nodup) :
    S.newBindings q bindings body ⊆ bindings := by
  obtain ⟨back, heq, hsub, -, -⟩ := newBindings_spec (S := S) q bindings body hnodup
  rw [heq]
  exact List.append_subset.2
    ⟨List.Subset.trans hsub (orderedSubsts_keys q bindings body), List.filter_subset_self _⟩

/-- The types of the new bindings do not mention what is eliminated. -/
theorem newBindings_closed (hnodup : bindings.Nodup) {pair : X × T}
    (hpair : pair ∈ S.eliminated q bindings body) {b : X}
    (hb : b ∈ S.newBindings q bindings body) : pair.1 ∉ S.tyFreevars (S.type b) := by
  obtain ⟨back, heq, -, -, hclosed⟩ := newBindings_spec (S := S) q bindings body hnodup
  have hkey : pair.1 ∈ (S.eliminated q bindings body).map (·.1) := List.mem_map_of_mem hpair
  rw [eliminated_keys, List.mem_filter] at hkey
  obtain ⟨hkey, hnew⟩ := hkey
  obtain ⟨p, hp, hpair⟩ := List.mem_map.1 hkey
  rw [heq] at hb hnew
  rw [← hpair] at hnew ⊢
  exact hclosed p hp (fun h => of_decide_eq_true hnew (List.mem_append_left _ h)) b hb

theorem mem_bindings_iff (hnodup : bindings.Nodup) {x : X} :
    x ∈ bindings ↔ x ∈ S.newBindings q bindings body ∨
      ∃ pair ∈ S.eliminated q bindings body, pair.1 = x := by
  rw [← List.mem_map (f := Prod.fst), eliminated_keys, List.mem_filter]
  constructor
  · intro hx
    by_cases hnew : x ∈ S.newBindings q bindings body
    · exact Or.inl hnew
    · refine Or.inr ⟨?_, decide_eq_true hnew⟩
      by_contra hkey
      obtain ⟨back, heq, -⟩ := newBindings_spec (S := S) q bindings body hnodup
      refine hnew (heq ▸ List.mem_append_right _ ?_)
      exact List.mem_filter.2 ⟨hx, decide_eq_true hkey⟩
  · rintro (hx | ⟨hx, -⟩)
    · exact newBindings_subset q bindings body hnodup hx
    · exact orderedSubsts_keys q bindings body hx

theorem not_mem_newBindings {pair : X × T} (hpair : pair ∈ S.eliminated q bindings body) :
    pair.1 ∉ S.newBindings q bindings body := by
  have hkey : pair.1 ∈ (S.eliminated q bindings body).map (·.1) := List.mem_map_of_mem hpair
  rw [eliminated_keys, List.mem_filter] at hkey
  exact of_decide_eq_true hkey.2

theorem decides_newBody_iff (ρ : X → V) :
    S.Decides q (S.newBody q bindings body) ρ ↔
      (∀ φ ∈ S.tcAlist (S.eliminated q bindings body) [], S.holds φ ρ) ∧
        S.Decides q body (substEnv S.eval (S.eliminated q bindings body) ρ) := by
  cases q with
  | exist => exact (S.holds_makeConjunction _ _ _).trans (and_congr_right' (S.holds_formSubstit ..))
  | forAll =>
    have hbody := S.holds_formSubstit body (S.eliminated .forAll bindings body) ρ
    exact (not_congr (S.holds_makeImplication ..)).trans
      (Classical.not_imp.trans (and_congr_right' (not_congr hbody)))

/-- Where the equations hold, the new body says what the body does. -/
theorem Consistent.decides_newBody_iff {ρ : X → V}
    (h : S.Consistent (S.eliminated q bindings body) ρ)
    (htyped : ∀ x ∈ S.formFreevars body, (∀ pair ∈ S.eliminated q bindings body, pair.1 ≠ x) →
      S.mem (S.type x) ρ (ρ x)) :
    S.Decides q (S.newBody q bindings body) ρ ↔
      (∀ pair ∈ S.eliminated q bindings body, S.mem (S.type pair.1) ρ (ρ pair.1)) ∧
        S.Decides q body ρ := by
  rw [QuantSyntax.decides_newBody_iff, h.substEnv_eq, holds_tcAlist h (by simp [Consistent])]
  intro pair hpair x hx
  exact htyped x (freevars_eliminated q bindings body hpair hx) fun p hp hpx =>
    eliminated_closed q bindings body hpair hp (hpx ▸ hx)

end Substs

end QuantSyntax

namespace QuantExpr

open QuantSyntax

variable (e : QuantExpr S) (q : Quantifier) {ρ ρ' : X → V}

variable (S) in
/-- The values of the bindings are in their types, the other values are those before. -/
def Extends (vars : List X) (ρ ρ' : X → V) : Prop :=
  (∀ x, x ∉ vars → ρ' x = ρ x) ∧ ∀ b ∈ vars, S.mem (S.type b) ρ' (ρ' b)

theorem existsAll_iff_extends {vars : List X}
    (horder : InOrder (fun b => S.tyFreevars (S.type b)) vars) (hnodup : vars.Nodup)
    (P : (X → V) → Prop) (ρ : X → V) :
    existsAll (fun b => S.mem (S.type b)) vars P ρ ↔ ∃ ρ', Extends S vars ρ ρ' ∧ P ρ' := by
  have hcongr : ∀ b ρ ρ', (∀ x ∈ S.tyFreevars (S.type b), ρ x = ρ' x) →
      ∀ v, S.mem (S.type b) ρ v ↔ S.mem (S.type b) ρ' v := fun b _ _ h => S.mem_congr h
  rw [existsAll_iff hcongr horder hnodup]
  simp only [Extends, and_assoc]

theorem not_mem_of_mem_quantFreevars {x : X} (hx : x ∈ S.quantFreevars e.bindings e.body) :
    x ∉ e.bindings := by
  obtain hx | hx := List.mem_append.1 hx
  · exact fun hb => not_mem_bindingsFreevars e.inOrder hb hx
  · exact of_decide_eq_true (List.mem_filter.1 hx).2

/-- The free variables keep values in their types. -/
theorem typed_outer (hρ : S.Typed (S.quantFreevars e.bindings e.body) ρ)
    (hagree : ∀ x, x ∉ e.bindings → ρ' x = ρ x) :
    S.Typed (S.quantFreevars e.bindings e.body) ρ' := by
  intro x hx
  rw [hagree x (e.not_mem_of_mem_quantFreevars hx)]
  refine (S.mem_congr (fun y hy => ?_) _).1 (hρ x hx)
  exact (hagree y fun hb => e.outer x hx y hb hy).symm

theorem typed_body (hρ : S.Typed (S.quantFreevars e.bindings e.body) ρ)
    (hagree : ∀ x, x ∉ e.bindings → ρ' x = ρ x)
    (hmem : ∀ b ∈ S.newBindings q e.bindings e.body, S.mem (S.type b) ρ' (ρ' b)) :
    ∀ x ∈ S.formFreevars e.body,
      (∀ pair ∈ S.eliminated q e.bindings e.body, pair.1 ≠ x) → S.mem (S.type x) ρ' (ρ' x) := by
  intro x hx hnot
  by_cases hb : x ∈ e.bindings
  · obtain hb | ⟨pair, hpair, hpx⟩ := (mem_bindings_iff q e.bindings e.body e.nodup).1 hb
    · exact hmem x hb
    · exact absurd hpx (hnot pair hpair)
  · refine e.typed_outer hρ hagree x (List.mem_append_right _ ?_)
    exact List.mem_filter.2 ⟨hx, decide_eq_true hb⟩

/-- The bindings that are left, in their order. -/
def kept : List X := e.bindings.filter (· ∈ S.newBindings q e.bindings e.body)

/-- The terms are in the types of their variables. -/
def Memberships (ρ : X → V) : Prop :=
  ∀ pair ∈ S.eliminated q e.bindings e.body,
    S.mem (S.type pair.1) (substEnv S.eval (S.eliminated q e.bindings e.body) ρ) (S.eval pair.2 ρ)

/-- The values that decide the quantifier, the memberships being stated. -/
def Stated (ρ : X → V) : Prop :=
  e.Memberships q ρ ∧ S.Decides q e.body (substEnv S.eval (S.eliminated q e.bindings e.body) ρ)

theorem mem_kept {x : X} : x ∈ e.kept q ↔ x ∈ S.newBindings q e.bindings e.body := by
  rw [kept, List.mem_filter, decide_eq_true_eq, and_iff_right_iff_imp]
  exact fun hx => newBindings_subset q e.bindings e.body e.nodup hx

theorem kept_inOrder : InOrder (fun b => S.tyFreevars (S.type b)) (e.kept q) :=
  e.inOrder.sublist _ List.filter_sublist

theorem kept_nodup : (e.kept q).Nodup := e.nodup.filter _

theorem extends_kept : Extends S (e.kept q) ρ ρ' ↔
    Extends S (S.newBindings q e.bindings e.body) ρ ρ' := by
  simp only [Extends, mem_kept]

theorem substEnv_of_not_eliminated {x : X}
    (hx : ∀ pair ∈ S.eliminated q e.bindings e.body, pair.1 ≠ x) (ρ : X → V) :
    substEnv S.eval (S.eliminated q e.bindings e.body) ρ x = ρ x :=
  substEnv_of_not_mem hx ρ

theorem consistent_eliminated (ρ : X → V) : S.Consistent (S.eliminated q e.bindings e.body)
    (substEnv S.eval (S.eliminated q e.bindings e.body) ρ) :=
  consistent_substEnv (eliminated_nodup q e.bindings e.body)
    (fun _ hpair _ hp => eliminated_closed q e.bindings e.body hpair hp) ρ

theorem eval_substEnv {pair : X × T} (hpair : pair ∈ S.eliminated q e.bindings e.body)
    (ρ : X → V) :
    substEnv S.eval (S.eliminated q e.bindings e.body) ρ pair.1 = S.eval pair.2 ρ := by
  rw [e.consistent_eliminated q ρ pair hpair]
  refine S.eval_congr fun x hx => e.substEnv_of_not_eliminated q (fun p hp hpx => ?_) ρ
  exact eliminated_closed q e.bindings e.body hpair hp (hpx ▸ hx)

/-- The eliminated variables get the values of their terms. -/
theorem extends_substEnv (hext : Extends S (S.newBindings q e.bindings e.body) ρ ρ') :
    (∀ x, x ∉ e.bindings →
      substEnv S.eval (S.eliminated q e.bindings e.body) ρ' x = ρ x) ∧
    ∀ b ∈ S.newBindings q e.bindings e.body,
      S.mem (S.type b) (substEnv S.eval (S.eliminated q e.bindings e.body) ρ')
        (substEnv S.eval (S.eliminated q e.bindings e.body) ρ' b) := by
  constructor
  · intro x hx
    rw [mem_bindings_iff q e.bindings e.body e.nodup, not_or] at hx
    rw [e.substEnv_of_not_eliminated q fun pair hpair hpx => hx.2 ⟨pair, hpair, hpx⟩,
      hext.1 x hx.1]
  · intro b hb
    rw [e.substEnv_of_not_eliminated q fun pair hpair hpb =>
      not_mem_newBindings q e.bindings e.body hpair (hpb ▸ hb)]
    refine (S.mem_congr (fun y hy => (e.substEnv_of_not_eliminated q
      (fun pair hpair hpy => ?_) ρ').symm) _).1 (hext.2 b hb)
    exact newBindings_closed q e.bindings e.body e.nodup hpair hb (hpy ▸ hy)

/-- The new body says that the terms are in the types of their variables. -/
theorem decides_newBody_iff_stated (hρ : S.Typed (S.quantFreevars e.bindings e.body) ρ)
    (hext : Extends S (S.newBindings q e.bindings e.body) ρ ρ') :
    S.Decides q (S.newBody q e.bindings e.body)
        (substEnv S.eval (S.eliminated q e.bindings e.body) ρ') ↔ e.Stated q ρ' := by
  obtain ⟨hagree, hnew⟩ := e.extends_substEnv q hext
  rw [(e.consistent_eliminated q ρ').decides_newBody_iff q e.bindings e.body
    (e.typed_body q hρ hagree hnew), Stated, Memberships]
  refine and_congr_left' (forall₂_congr fun pair hpair => ?_)
  rw [e.eval_substEnv q hpair]

/-- Eliminating the variables is an equivalence when the bindings that are left keep their order. -/
theorem existsAll_stated (ρ : X → V) :
    existsAll (fun b => S.mem (S.type b)) (e.kept q) (e.Stated q) ρ ↔
      existsAll (fun b => S.mem (S.type b)) e.bindings (S.Decides q e.body) ρ := by
  rw [existsAll_iff_extends (e.kept_inOrder q) (e.kept_nodup q),
    existsAll_iff_extends e.inOrder e.nodup]
  simp only [extends_kept]
  constructor
  · rintro ⟨ρ', hext, hmem, hbody⟩
    obtain ⟨hagree, hnew⟩ := e.extends_substEnv q hext
    refine ⟨_, ⟨hagree, fun b hb => ?_⟩, hbody⟩
    obtain hb | ⟨pair, hpair, rfl⟩ :=
      (mem_bindings_iff (S := S) q e.bindings e.body e.nodup).1 hb
    · exact hnew b hb
    · rw [e.eval_substEnv q hpair]
      exact hmem pair hpair
  · rintro ⟨ρ', hext, hbody⟩
    have hordered : S.Consistent (S.orderedSubsts q e.bindings e.body) ρ' := fun pair hpair =>
      consistent_of_decides hbody pair (orderedSubsts_subset q e.bindings e.body hpair)
    have hcons : S.Consistent (S.eliminated q e.bindings e.body) ρ' := hordered.selfApply _
    -- the eliminated variables get the values that they had before
    have hold : ∃ ρ₀ : X → V, (∀ x, x ∉ S.newBindings q e.bindings e.body → ρ₀ x = ρ x) ∧
        ∀ x, (∀ pair ∈ S.eliminated q e.bindings e.body, pair.1 ≠ x) → ρ' x = ρ₀ x := by
      refine ⟨fun x => if x ∈ S.newBindings q e.bindings e.body then ρ' x else ρ x,
        fun x hx => if_neg hx, fun x hx => ?_⟩
      beta_reduce
      split
      · rfl
      next hnot =>
        refine hext.1 x fun hb => ?_
        obtain hb | ⟨pair, hpair, hpx⟩ :=
          (mem_bindings_iff (S := S) q e.bindings e.body e.nodup).1 hb
        · exact hnot hb
        · exact hx pair hpair hpx
    obtain ⟨ρ₀, hρ₀, hagree⟩ := hold
    have hterm : ∀ pair ∈ S.eliminated q e.bindings e.body,
        S.eval pair.2 ρ₀ = ρ' pair.1 := by
      intro pair hpair
      rw [hcons pair hpair]
      refine S.eval_congr fun x hx => (hagree x fun p hp hpx => ?_).symm
      exact eliminated_closed q e.bindings e.body hpair hp (hpx ▸ hx)
    have hsubst : substEnv S.eval (S.eliminated q e.bindings e.body) ρ₀ = ρ' := by
      funext x
      by_cases hx : ∃ pair ∈ S.eliminated q e.bindings e.body, pair.1 = x
      · obtain ⟨pair, hpair, rfl⟩ := hx
        rw [e.eval_substEnv q hpair, hterm pair hpair]
      · push Not at hx
        rw [e.substEnv_of_not_eliminated q hx, hagree x hx]
    refine ⟨ρ₀, ⟨hρ₀, fun b hb => ?_⟩, fun pair hpair => ?_, hsubst ▸ hbody⟩
    · have hkeep : ∀ pair ∈ S.eliminated q e.bindings e.body, pair.1 ≠ b :=
        fun pair hpair hpb => not_mem_newBindings q e.bindings e.body hpair (hpb ▸ hb)
      rw [← hagree b hkeep]
      refine (S.mem_congr (fun y hy => hagree y fun pair hpair hpy => ?_) _).1
        (hext.2 b (newBindings_subset q e.bindings e.body e.nodup hb))
      exact newBindings_closed q e.bindings e.body e.nodup hpair hb (hpy ▸ hy)
    · rw [hsubst, hterm pair hpair]
      exact hext.2 _ ((mem_bindings_iff q e.bindings e.body e.nodup).2 (Or.inr ⟨pair, hpair, rfl⟩))

end QuantExpr

end PVS.Assert
