import Mathlib
import PVS.Prover.SkolemRule

/-! The rules for quantifiers are sound -/

namespace PVS.Quantifiers

open Library.Dependent

variable {ν κ τ ι δ D : Type} [DecidableEq ν]

/-! ### Scopes -/

/-- What the replaced variables and those that are kept are independent of -/
structure Scoped {α : Type} (σ : Subst ν κ τ) (bs : Bindings ν κ τ) (terms : List (Option α)) :
    Prop where
  remaining : ∀ s ∈ entries (substit σ (idBoundvars bs terms)), ∀ y ∈ freevars s.2,
    y ∉ (subBoundvars bs terms).map Prod.fst
  eliminated : ∀ s ∈ subBoundvars bs terms, ∀ y ∈ freevars s.2.1, y ∉ bound (idBoundvars bs terms)

theorem Replaces.scopes {α : Type} {σ : Subst ν κ τ} {bs : Bindings ν κ τ}
    {terms : List (Option α)} (h : Replaces σ bs terms) (hnodup : (bound bs).Nodup)
    (hoverlap : overlap (subBoundvars bs terms) (idBoundvars bs terms) = []) :
    Scoped σ bs terms := by
  refine ⟨fun s hs y hy hsub => ?_, overlap_eq_nil.1 hoverlap⟩
  rw [entries_substit (h.none_of_kept hnodup)] at hs
  obtain ⟨s', -, rfl⟩ := List.mem_map.1 hs
  have hnone := (freevars_substit h.closed hy).2
  rw [← h.some_iff, hnone] at hsub
  exact nomatch hsub

/-- A quantified formula of the sequent, and what the formulas of the subgoal are -/
structure Step {α : Type} (level : Bool → Quantifier) (terms : List (Option α))
    (sforms subgoal preds : List (Expr ν κ τ)) (σ : Subst ν κ τ) (sign : Bool) (bs : Bindings ν κ τ)
    (e : Expr ν κ τ) : Prop where
  mem : signed sign (.quant (level sign) bs e) ∈ sforms
  length : (bound bs).length = terms.length
  subgoal : ∀ f ∈ subgoal, f ∈ preds ∨ f ∈ sforms ∨
    f = signed sign (substit σ (newexpr (level sign) (idBoundvars bs terms) e))
  replaces : Replaces σ bs terms
  scopes : Scoped σ bs terms

/-! ### Skolemization -/

section Skolem

variable [DecidableEq ι] {T : Constants ν κ τ ι} {U : TypeFacts κ δ ν τ}
  {exequal : Expr ν κ τ → Expr ν κ τ → Bool} {state : δ} {context : List (Declaration κ ι)}
  {sforms : List (Expr ν κ τ)} {fnum : Int} {terms : List (Option (SkolemTerm ι))}
  {skolemTypepreds : Bool} {result : SkolemResult ν κ τ ι}

/-- What the step is on: a formula with this number, whose bindings match the terms -/
theorem skolemStep_changed
    (h : skolemStep T exequal U state context sforms fnum terms skolemTypepreds = result)
    (hresult : result ≠ .unchanged) :
    ∃ sign bs e skobody made context' reduced,
      signed sign (.quant (skolemQuantifier sign) bs e) ∈ sforms ∧
      (bound bs).length = terms.length ∧
      skolemizeStep T (.quant (skolemQuantifier sign) bs e) terms context =
        (skobody, made, context') ∧
      exequal skobody (.quant (skolemQuantifier sign) bs e) = false ∧
      (∀ f ∈ reduced, f ∈ sforms ∨ f = signed sign skobody) ∧
      result = if refuted U (made.flatMap fun a => U.typeConstraints a.2) state then .closed
        else .subgoal ((if skolemTypepreds then made.flatMap fun a => U.typepreds a.2
          else []).map negate ++ reduced) made context' := by
  rw [skolemStep] at h
  split at h
  · exact absurd h.symm hresult
  · rename_i hfind
    rw [Bool.not_eq_true, Bool.not_eq_false'] at hfind
    obtain ⟨before, sform, after, sign, rfl, hsign, rfl, hpred⟩ := findSform_split hfind
    obtain ⟨bs, hbs, hlen⟩ := matchesLength_some hpred
    obtain ⟨e, hbody⟩ := skolemizable_some hbs
    obtain ⟨hsform, hneg⟩ := eq_signed_body hbody
    obtain rfl : (body sform).1 = sign := by
      rw [hneg] at hsign
      simpa using hsign
    generalize (body sform).1 = sign at *
    subst hsform
    have hmatches : matchesLength (some bs) terms = true := by simp [matchesLength, hlen]
    rcases hstep : skolemizeStep T (.quant (skolemQuantifier sign) bs e) terms context with
      ⟨skobody, made, context'⟩
    rw [sformReduce_from _ _ _ hsign (by decide) (by decide)] at h
    simp only [skolemStepSform, body_signed, skolemizable_skolemQuantifier, hmatches, if_true,
      hstep] at h
    cases hexequal : exequal skobody (.quant (skolemQuantifier sign) bs e) with
    | true =>
      simp only [hexequal, if_true, Bool.not_false] at h
      exact absurd h.symm hresult
    | false =>
      simp only [hexequal, Bool.false_eq_true, if_false, Bool.not_true] at h
      refine ⟨sign, bs, e, skobody, made, context', _, by simp, hlen, hstep, hexequal, ?_, h.symm⟩
      intro f hf
      simp only [List.mem_append, List.mem_filter, List.mem_cons, List.not_mem_nil, or_false] at hf ⊢
      obtain ⟨hf, -⟩ | ⟨rfl, -⟩ | ⟨hf, -⟩ := hf
      · exact .inl (.inl hf)
      · exact .inr rfl
      · exact .inl (.inr (.inr hf))

omit [DecidableEq ι] in
theorem typepreds_true (skolemTypepreds : Bool) {ρ : ν → D} {facts : δ → Model κ τ D → Prop} (hU : U.Sound T ρ facts)
    {M : Model κ τ D} {made : List (ν × κ)}
    (htyped : ∀ a ∈ made, eval M (T.type a.2) ρ (M.constant a.2)) :
    (∀ f ∈ made.flatMap fun a => U.typeConstraints a.2, M.IsTrue (eval M f ρ)) ∧
      ∀ f ∈ (if skolemTypepreds then made.flatMap fun a => U.typepreds a.2 else []).map negate,
        ¬ M.IsTrue (eval M f ρ) := by
  refine ⟨fun f hf => ?_, fun f hf => ?_⟩
  · obtain ⟨a, ha, hf⟩ := List.mem_flatMap.1 hf
    exact hU.typeConstraints M a.2 (htyped a ha) f hf
  · obtain ⟨g, hg, rfl⟩ := List.mem_map.1 hf
    split at hg
    · obtain ⟨a, ha, hg⟩ := List.mem_flatMap.1 hg
      rw [isTrue_negate, not_not]
      exact hU.typepreds M a.2 (htyped a ha) g hg
    · exact nomatch hg

/-- What is known of the constants that a skolemization introduces -/
structure Introduced (T : Constants ν κ τ ι) (sforms : List (Expr ν κ τ)) (bs : Bindings ν κ τ)
    (made : List (ν × κ)) : Prop where
  fresh : ∀ a ∈ made, ∀ f ∈ sforms, a.2 ∉ constants f
  type : ∀ earlier a later, made = earlier ++ a :: later → ∃ type, (a.1, type) ∈ entries bs ∧
    T.type a.2 = substit (constantAlist earlier).toSubst type

theorem skolemStep_introduced (hexequal : ∀ f, exequal f f = true) (hformed : Formed sforms)
    (hdeclared : Declared T context sforms) {new : List (Expr ν κ τ)} {made : List (ν × κ)}
    {context' : List (Declaration κ ι)}
    (h : skolemStep T exequal U state context sforms fnum terms skolemTypepreds =
      .subgoal new made context') :
    ∃ sign bs e, Step skolemQuantifier terms sforms new
      ((made.flatMap fun a => U.typepreds a.2).map negate) (constantAlist made).toSubst sign bs e ∧
      Introduced T sforms bs made := by
  obtain ⟨sign, bs, e, skobody, made', context'', reduced, hmem, hlen, hstep, hchanged, hreduced,
    hresult⟩ := skolemStep_changed h nofun
  obtain ⟨-, hproper⟩ := hformed.proper hmem
  split at hresult
  · exact nomatch hresult
  · obtain ⟨rfl, rfl, rfl⟩ := hresult
    obtain ⟨rfl, -⟩ | ⟨hmade, hoverlap, rfl⟩ := skolemizeStep_cases hproper.nodup hstep
    · rw [hexequal] at hchanged
      exact nomatch hchanged
    · refine ⟨sign, bs, e, ⟨hmem, hlen, fun f hf => ?_, hmade.replaces,
        hmade.replaces.scopes hproper.nodup hoverlap⟩, hmade.fresh hdeclared, ?_⟩
      · obtain hf | hf := List.mem_append.1 hf
        · split at hf
          · exact .inl hf
          · exact nomatch hf
        · exact .inr (hreduced f hf)
      · intro earlier a later heq
        obtain ⟨s, hs, hx, -, htype⟩ := hmade.type earlier a later heq
        exact ⟨s.2.1, hx ▸ mem_entries_of_subBoundvars hs, htype⟩

/-- The subgoal holds whatever values of their types the constants have. -/
def SkolemResult.Holds (T : Constants ν κ τ ι) (M : Model κ τ D) (ρ : ν → D) :
    SkolemResult ν κ τ ι → Prop
  | .unchanged => False
  | .closed => True
  | .subgoal new made _ => ∀ values : κ → D,
    (∀ c, c ∉ made.map Prod.snd → values c = M.constant c) →
    (∀ a ∈ made, eval (M.withConstants values) (T.type a.2) ρ (values a.2)) →
    Quantifiers.Holds (M.withConstants values) ρ new

theorem skolemStep_sound {M : Model κ τ D} {ρ : ν → D} {facts : δ → Model κ τ D → Prop}
    (hU : U.Sound T ρ facts) (hformed : Formed sforms) (hdeclared : Declared T context sforms)
    (hstate : ∀ M' : Model κ τ D, Typed T M' ρ context → ¬ Holds M' ρ sforms → facts state M')
    (htyped : Typed T M ρ context)
    (h : skolemStep T exequal U state context sforms fnum terms skolemTypepreds = result)
    (hresult : result.Holds T M ρ) : Holds M ρ sforms := by
  by_contra hnot
  have hchanged : result ≠ .unchanged := by
    rintro rfl
    exact hresult
  obtain ⟨sign, bs, e, skobody, made, context', reduced, hmem, hlen, hstep, -, hreduced, rfl⟩ :=
    skolemStep_changed h hchanged
  obtain ⟨hfree, hproper⟩ := hformed.proper hmem
  obtain ⟨values, hother, hmade, hcounter⟩ :=
    exists_counterModel hproper hfree hlen hdeclared hmem hstep hnot
  have hfacts : facts state (M.withConstants values) :=
    hstate _ (htyped.withConstants hdeclared (new_of_skolemizeStep hproper.nodup hstep) hother)
      fun ⟨f, hf, htrue⟩ => hcounter ⟨f, List.mem_cons_of_mem _ hf, htrue⟩
  obtain ⟨hconstraints, hpreds⟩ := typepreds_true skolemTypepreds hU hmade
  rw [refuted_eq_false hU hfacts hconstraints] at hresult
  obtain ⟨f, hf, htrue⟩ := hresult values hother hmade
  obtain hf | hf := List.mem_append.1 hf
  · exact hpreds f hf htrue
  · refine hcounter ⟨f, ?_, htrue⟩
    rw [List.mem_cons]
    exact (hreduced f hf).symm

end Skolem

/-! ### Instantiation -/

theorem quantStep_instance {C : Checker ν κ τ} (hexequal : ∀ f, C.exequal f f = true)
    {sforms : List (Expr ν κ τ)} (hformed : Formed sforms) {fnum : Int}
    {terms : List (Option (Expr ν κ τ))} {copy : Bool} {subgoal : List (Expr ν κ τ)}
    {tccgoals : List (List (Expr ν κ τ))}
    (h : quantStep C sforms fnum terms copy = some (subgoal, tccgoals)) :
    ∃ sign bs e qalist, Step levelQuantifier terms sforms subgoal []
      (Alist.toSubst qalist) sign bs e := by
  obtain ⟨before, sign, bs, e, after, qbody, tccs, rfl, hlen, hstep, hchanged, hmem, -⟩ :=
    quantStep_some h
  have hquant : signed sign (.quant (levelQuantifier sign) bs e) ∈
      before ++ signed sign (.quant (levelQuantifier sign) bs e) :: after := by simp
  obtain ⟨-, hproper⟩ := hformed.proper hquant
  obtain rfl | ⟨qalist, hqalist, hoverlap, hclosed, rfl⟩ := quantifierStep_cases hstep
  · rw [hexequal] at hchanged
    exact nomatch hchanged
  · have hreplaces := replaces_of_makeQuantAlist hqalist hclosed
    exact ⟨sign, bs, e, qalist, hquant, hlen, fun f hf => .inr (hmem f hf), hreplaces,
      hreplaces.scopes hproper.nodup hoverlap⟩

/-! ### The rules -/

section Rules

variable [DecidableEq ι] {T : Constants ν κ τ ι} {U : TypeFacts κ δ ν τ} {C : Checker ν κ τ}
  {exequal : Expr ν κ τ → Expr ν κ τ → Bool} {context : List (Declaration κ ι)}
  {sforms : List (Expr ν κ τ)}

/-- The constants and the terms that are put for variables respect the types of these, and where what
the rules leave to prove holds the sequent does. -/
theorem quantifier_rules_sound (hexequal : ∀ f, exequal f f = true)
    (hchecker : ∀ f, C.exequal f f = true) (hformed : Formed sforms)
    (hdeclared : Declared T context sforms) (state : δ) (fnum : Int) :
    (∀ terms skolemTypepreds,
      (∀ new made context',
        skolemStep T exequal U state context sforms fnum terms skolemTypepreds =
          .subgoal new made context' →
        ∃ sign bs e, Step skolemQuantifier terms sforms new
          ((made.flatMap fun a => U.typepreds a.2).map negate) (constantAlist made).toSubst sign bs
          e ∧ Introduced T sforms bs made) ∧
      ∀ {D : Type} (M : Model κ τ D) (ρ : ν → D) (facts : δ → Model κ τ D → Prop),
        U.Sound T ρ facts →
        (∀ M' : Model κ τ D, Typed T M' ρ context → ¬ Holds M' ρ sforms → facts state M') →
        Typed T M ρ context →
        (skolemStep T exequal U state context sforms fnum terms skolemTypepreds).Holds T M ρ →
        Holds M ρ sforms) ∧
    ∀ terms copy subgoal tccgoals, quantStep C sforms fnum terms copy = some (subgoal, tccgoals) →
      (∃ sign bs e qalist, Step levelQuantifier terms sforms subgoal []
        (Alist.toSubst qalist) sign bs e) ∧
      ∀ {D : Type} (M : Model κ τ D) (ρ : ν → D), C.Sound M ρ → C.SimplifierSound M ρ sforms →
        Holds M ρ subgoal → (∀ goal ∈ tccgoals, Holds M ρ goal) → Holds M ρ sforms := by
  refine ⟨fun terms skolemTypepreds => ⟨fun new made context' h => ?_, ?_⟩,
    fun terms copy subgoal tccgoals h => ⟨?_, ?_⟩⟩
  · exact skolemStep_introduced hexequal hformed hdeclared h
  · intro D M ρ facts hU hstate htyped hresult
    exact skolemStep_sound hU hformed hdeclared hstate htyped rfl hresult
  · exact quantStep_instance hchecker hformed h
  · intro D M ρ hsound hassert hsubgoal htccgoals
    exact quantStep_sound hsound hassert hformed h hsubgoal htccgoals

end Rules

/-! ### A dependent pair -/

/-- Constants of the prelude, and skolem constants -/
inductive PairConstant
  | prelude (id : Nat)
  | skolem (id : Nat) (type : Node Nat PairConstant Nat .type)

def pairConstants : Constants Nat PairConstant Nat Nat where
  id
    | .prelude id => id
    | .skolem id _ => id
  current
    | .prelude _ => false
    | .skolem _ _ => true
  type
    | .prelude _ => .name 0
    | .skolem _ type => type
  compatible := fun _ _ => false
  skolemConst := .skolem
  id_skolemConst := fun _ _ => rfl
  current_skolemConst := fun _ _ => rfl
  type_skolemConst := fun _ _ => rfl

def noFacts : TypeFacts PairConstant Unit Nat Nat where
  typeConstraints := fun _ => []
  typepreds := fun _ => []
  assertTypepred := fun state _ => (state, false)

open Classical in
noncomputable def sameExpr (e e' : Expr Nat PairConstant Nat) : Bool := decide (e = e')

/-- Constants are of the type `T`. -/
noncomputable def nameChecker : Checker Nat PairConstant Nat where
  typecheck := fun term type => match term, type with
    | .constant c, .name 0 => some (.constant c, [])
    | _, _ => none
  assertTccforms := fun _ tccforms => tccforms
  exequal := sameExpr

/-- `{z: T | R(t)(z)}` -/
def related (t : Expr Nat PairConstant Nat) : TypeExpr Nat PairConstant Nat :=
  .subtype 2 (.name 0) (.application (.application (.constant (.prelude 0)) t) (.var 2))

/-- `P(y)` -/
def property : Expr Nat PairConstant Nat := .application (.constant (.prelude 1)) (.var 1)

/-- `FORALL (x: T, y: {z: T | R(x)(z)}): P(y)` -/
def allPairs : Expr Nat PairConstant Nat :=
  .quant .forAll (.cons 0 (.name 0) (.cons 1 (related (.var 0)) .nil)) property

/-- `FORALL (y: {z: T | R(t)(z)}): P(y)` -/
def allRelated (t : Expr Nat PairConstant Nat) : Expr Nat PairConstant Nat :=
  .quant .forAll (.cons 1 (related t) .nil) property

/-- With a constant for `x` and the placeholder for `y` -/
theorem quantifier_rules_sound_pair :
    skolemStep pairConstants sameExpr noFacts () [] [allPairs] 1 [some (.name 7), none] false =
        .subgoal [allRelated (.constant (.skolem 7 (.name 0)))] [(0, .skolem 7 (.name 0))]
          [.constant (.skolem 7 (.name 0))] ∧
      ∀ {D : Type} (M : Model PairConstant Nat D) (ρ : Nat → D),
        (∀ values : PairConstant → D,
          (∀ c, c ≠ .skolem 7 (.name 0) → values c = M.constant c) →
          M.name 0 (values (.skolem 7 (.name 0))) →
          Holds (M.withConstants values) ρ [allRelated (.constant (.skolem 7 (.name 0)))]) →
        Holds M ρ [allPairs] := by
  have hstep : skolemStep pairConstants sameExpr noFacts () [] [allPairs] 1
      [some (.name 7), none] false =
        .subgoal [allRelated (.constant (.skolem 7 (.name 0)))] [(0, .skolem 7 (.name 0))]
          [.constant (.skolem 7 (.name 0))] := by
    have hchanged : sameExpr (allRelated (.constant (.skolem 7 (.name 0)))) allPairs = false := by
      simp [sameExpr, allRelated, allPairs]
    have hskolemize : skolemizeStep pairConstants allPairs [some (.name 7), none] [] =
        (allRelated (.constant (.skolem 7 (.name 0))), [(0, .skolem 7 (.name 0))],
          [.constant (.skolem 7 (.name 0))]) := by
      rfl
    have hchange : skolemStepSform pairConstants sameExpr [some (.name 7), none] allPairs ([], []) =
        (true, [allRelated (.constant (.skolem 7 (.name 0)))], [(0, .skolem 7 (.name 0))],
          [.constant (.skolem 7 (.name 0))]) := by
      have hmatches : matchesLength (skolemizable true allPairs)
          [some (SkolemTerm.name 7), none] = true := rfl
      have hbody : body allPairs = (true, allPairs) := rfl
      simp only [skolemStepSform, hbody, hmatches, if_true, hskolemize, hchanged,
        Bool.false_eq_true, if_false, signed]
    have hreduce : sformReduce (skolemStepSform pairConstants sameExpr [some (.name 7), none]) 1
        [allPairs] 1 (-1) ([], []) = (true, [allRelated (.constant (.skolem 7 (.name 0)))],
          [(0, .skolem 7 (.name 0))], [.constant (.skolem 7 (.name 0))]) := by
      have hpositive : isNegation allPairs = false := rfl
      have htrivial : isTrivial (allRelated (.constant (.skolem 7 (.name 0)))) = false := rfl
      simp [sformReduce, hchange, hpositive, htrivial]
    have hfind : findSform (fun sform => matchesLength (skolemizable (body sform).1 (body sform).2)
        [some (SkolemTerm.name 7), none]) 1 [allPairs] 1 (-1) = true := rfl
    simp [skolemStep, hfind, hreduce, noFacts, refuted]
  refine ⟨hstep, fun M ρ hsubgoal => ?_⟩
  have hformed : Formed [allPairs] := by
    refine ⟨?_, ?_⟩
    · simp [allPairs, related, property, freevars]
    · rintro f hf q bs e hbody
      rw [List.mem_singleton] at hf
      subst hf
      obtain ⟨-, rfl, -⟩ := hbody
      simp
  have hdeclared : Declared pairConstants [] [allPairs] :=
    ⟨by simp [allPairs, related, property, constants, pairConstants], fun c hc => by cases hc⟩
  obtain ⟨hskolem, -⟩ := quantifier_rules_sound (U := noFacts) (C := nameChecker)
    (show ∀ f, sameExpr f f = true by simp [sameExpr]) (by simp [nameChecker, sameExpr]) hformed
    hdeclared () 1
  refine (hskolem [some (.name 7), none] false).2 M ρ (fun _ _ => True) ⟨?_, ?_, ?_⟩
    (fun _ _ _ => trivial) ?_ ?_
  · intro _ _ _ f hf
    cases hf
  · intro _ _ _ f hf
    cases hf
  · exact fun _ _ _ _ _ => ⟨trivial, rfl⟩
  · intro c hc
    cases hc
  · rw [hstep]
    intro values hother htyped
    refine hsubgoal values (fun c hc => hother c (by simpa using hc)) ?_
    exact htyped _ (List.mem_singleton_self _)

end PVS.Quantifiers
