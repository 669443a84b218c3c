import PVS.Prover.SkolemSound

/-! A skolemization is sound, and what it introduces is new -/

namespace PVS.Quantifiers

open Library.Dependent

variable {ν κ τ ι D : Type} [DecidableEq ν] [DecidableEq ι] {T : Constants ν κ τ ι}

/-! ### A formula that is not true -/

/-- The quantifier of a consequent that is skolemized, and of an antecedent -/
def skolemQuantifier (sign : Bool) : Quantifier := if sign then .forAll else .exist

section Formula

variable {M : Model κ τ D} {ρ : ν → D} {sign : Bool} {bs : Bindings ν κ τ} {e : Expr ν κ τ}

omit [DecidableEq ν] in
theorem skolemizable_some {b : Expr ν κ τ} (h : skolemizable sign b = some bs) :
    ∃ e, b = .quant (skolemQuantifier sign) bs e := by
  cases b with
  | quant q bs' e =>
    cases q <;> cases sign <;> simp [skolemizable] at h <;> exact ⟨e, by rw [h]; rfl⟩
  | _ => simp [skolemizable] at h

omit [DecidableEq ν] in
@[simp] theorem skolemizable_skolemQuantifier :
    skolemizable sign (.quant (skolemQuantifier sign) bs e) = some bs := by
  cases sign <;> simp [skolemQuantifier, skolemizable]

theorem not_isTrue_signed {f : Expr ν κ τ} :
    ¬ M.IsTrue (eval M (signed sign f) ρ) ↔ (M.IsTrue (eval M f ρ) ↔ sign = false) := by
  rw [isTrue_signed]
  cases sign <;> simp

/-- Where the formula is not true there are values of its variables for which the body is not. -/
theorem values_of_not_isTrue (hproper : Proper bs)
    (h : ¬ M.IsTrue (eval M (signed sign (.quant (skolemQuantifier sign) bs e)) ρ)) :
    ∃ ρ' : ν → D, (∀ x, x ∉ bound bs → ρ' x = ρ x) ∧
      (∀ s ∈ entries bs, eval M s.2 ρ' (ρ' s.1)) ∧ ¬ M.IsTrue (eval M (signed sign e) ρ') := by
  rw [not_isTrue_signed, eval, M.isTrue_ofProp] at h
  cases sign with
  | true =>
    simp only [skolemQuantifier, if_true, Bool.true_eq_false, iff_false] at h
    rw [eval_forAll_iff hproper] at h
    push Not at h
    obtain ⟨ρ', houter, htyped, hbody⟩ := h
    exact ⟨ρ', houter, htyped, hbody⟩
  | false =>
    simp only [skolemQuantifier, Bool.false_eq_true, if_false, iff_true] at h
    rw [eval_exist_iff hproper] at h
    obtain ⟨ρ', houter, htyped, hbody⟩ := h
    exact ⟨ρ', houter, htyped, not_isTrue_signed.2 (iff_of_true hbody rfl)⟩

/-- A choice for which the body is not true makes the quantified formula not true. -/
theorem not_isTrue_newexpr {σ : Subst ν κ τ} {ids : Bindings ν κ τ} {ρ' : ν → D} (hσ : σ.Closed)
    (hids : ∀ x ∈ bound ids, σ x = none) (hproper : Proper (substit σ ids))
    (hchoice : Choice M σ ids ρ ρ') (h : ¬ M.IsTrue (eval M (signed sign e) (σ.assign M ρ'))) :
    ¬ M.IsTrue (eval M (signed sign (substit σ (newexpr (skolemQuantifier sign) ids e))) ρ) := by
  rw [not_isTrue_signed] at h ⊢
  cases sign with
  | true =>
    simp only [skolemQuantifier, if_true, Bool.true_eq_false, iff_false] at h ⊢
    rw [eval_newexpr_forAll hσ hids hproper]
    exact fun hall => h (hall ρ' hchoice)
  | false =>
    simp only [skolemQuantifier, Bool.false_eq_true, if_false, iff_true] at h ⊢
    rw [eval_newexpr_exist hσ hids hproper]
    exact ⟨ρ', hchoice, h⟩

omit [DecidableEq ν] in
@[simp] theorem constants_signed {f : Expr ν κ τ} : constants (signed sign f) = constants f := by
  cases sign with
  | true => rw [signed, if_pos rfl]
  | false => cases f <;> simp [signed, negate, constants]

end Formula

section Values

variable {context : List (Declaration κ ι)} {bs : Bindings ν κ τ} {e : Expr ν κ τ}
  {terms : List (Option (SkolemTerm ι))} {made : List (ν × κ)} {M : Model κ τ D} {ρ ρ' : ν → D}
  {values : κ → D}

/-- The constants are of their types when they have the values of the variables. -/
theorem Made.typed (h : Made T context bs terms made) (hfree : freevars bs = [])
    (hoverlap : overlap (subBoundvars bs terms) (idBoundvars bs terms) = [])
    (hvalues : ∀ a ∈ made, values a.2 = ρ' a.1)
    (hsame : ∀ c ∈ constants bs, M.constant c = values c)
    (htyped : ∀ s ∈ entries bs, eval M s.2 ρ' (ρ' s.1)) :
    ∀ a ∈ made, eval (M.withConstants values) (T.type a.2) ρ (values a.2) := by
  intro a ha
  obtain ⟨earlier, later, heq⟩ := List.append_of_mem ha
  obtain ⟨s, hs, hx, ⟨before, after, hsub, hbefore⟩, htype⟩ := h.type earlier a later heq
  have hentry := mem_entries_of_subBoundvars hs
  have hearlier : (earlier.map Prod.fst).Nodup := by
    have hnodup := h.keysNodup
    rw [heq, List.map_append] at hnodup
    exact (List.nodup_append.1 hnodup).1
  have hassign : ∀ y ∈ freevars s.2.1,
      (constantAlist earlier : Alist ν κ τ).toSubst.assign (M.withConstants values) ρ y = ρ' y := by
    intro y hy
    obtain hbs | hmem | hids := freevars_subBoundvars hsub hy
    · rw [hfree] at hbs
      exact nomatch hbs
    · rw [← hbefore] at hmem
      obtain ⟨b, hb, rfl⟩ := List.mem_map.1 hmem
      have hlookup : (constantAlist earlier : Alist ν κ τ).toSubst b.1 = some (.constant b.2) :=
        lookup_of_nodup (by rwa [map_fst_constantAlist]) (List.mem_map_of_mem hb)
      rw [Subst.assign_of_some hlookup, eval]
      exact hvalues b (heq ▸ List.mem_append_left _ hb)
    · exact absurd hids (overlap_eq_nil.1 hoverlap s hs y hy)
  have hvalue := htyped _ hentry
  rw [htype, eval_substit _ s.2.1 (closed_constantAlist earlier), eval_same _ s.2.1 hassign,
    ← eval_withConstants M s.2.1 fun c hc => hsame c (entries_constants hentry hc),
    hvalues a ha, ← hx]
  exact hvalue

/-- With these values the formula that is left is not true. -/
theorem Made.not_isTrue (h : Made T context bs terms made) {sign : Bool} (hproper : Proper bs)
    (hlen : (bound bs).length = terms.length) (hvalues : ∀ a ∈ made, values a.2 = ρ' a.1)
    (hsame : ∀ c ∈ constants (.quant (skolemQuantifier sign) bs e), M.constant c = values c)
    (houter : ∀ x, x ∉ bound bs → ρ' x = ρ x) (htyped : ∀ s ∈ entries bs, eval M s.2 ρ' (ρ' s.1))
    (hbody : ¬ M.IsTrue (eval M (signed sign e) ρ')) :
    ¬ (M.withConstants values).IsTrue (eval (M.withConstants values) (signed sign
      (substit (constantAlist made : Alist ν κ τ).toSubst
        (newexpr (skolemQuantifier sign) (idBoundvars bs terms) e))) ρ) := by
  have hreplaces := h.replaces
  have hassign := h.assign (M := M.withConstants values) hvalues houter hlen
  rw [constants, List.forall_mem_append] at hsame
  have hchoice : Choice (M.withConstants values) (constantAlist made : Alist ν κ τ).toSubst
      (idBoundvars bs terms) ρ (fun x => if x ∈ bound (idBoundvars bs terms) then ρ' x else ρ x) := by
    refine ⟨fun x hx => if_neg hx, fun s hs => ?_⟩
    have hbound : s.1 ∈ bound (idBoundvars bs terms) := by
      rw [← map_fst_entries]
      exact List.mem_map_of_mem hs
    have hentry := mem_entries_idBoundvars hs
    have hvalue := htyped s hentry
    rw [eval_withConstants M s.2 fun c hc => hsame.1 c (entries_constants hentry hc)] at hvalue
    simp only [hassign, if_pos hbound]
    exact hvalue
  refine not_isTrue_newexpr hreplaces.closed (hreplaces.none_of_kept hproper.nodup)
    (hreplaces.proper hproper) hchoice ?_
  rw [hassign, ← eval_withConstants M (signed sign e) (by simpa using hsame.2)]
  exact hbody

end Values

/-! ### The rule -/

/-- What is promised of the declarations: the constants of this theory that occur in the sequent and
in the types of what is declared are declared. -/
structure Declared (T : Constants ν κ τ ι) (context : List (Declaration κ ι))
    (sforms : List (Expr ν κ τ)) : Prop where
  formula : ∀ f ∈ sforms, ∀ c ∈ constants f, T.current c = true → declared T (T.id c) context = true
  type : ∀ c, .constant c ∈ context → ∀ c' ∈ constants (T.type c), T.current c' = true →
    declared T (T.id c') context = true

/-- The declared constants are of their types. -/
def Typed (T : Constants ν κ τ ι) (M : Model κ τ D) (ρ : ν → D)
    (context : List (Declaration κ ι)) : Prop :=
  ∀ c, .constant c ∈ context → eval M (T.type c) ρ (M.constant c)

/-- What is promised of the types: the predicates and constraints of a constant are true where it is
of its type, and the decision procedure refutes no true constraint. -/
structure TypeFacts.Sound {δ : Type} (U : TypeFacts κ δ ν τ) (T : Constants ν κ τ ι) (ρ : ν → D)
    (facts : δ → Model κ τ D → Prop) : Prop where
  typeConstraints : ∀ (M : Model κ τ D) c, eval M (T.type c) ρ (M.constant c) →
    ∀ f ∈ U.typeConstraints c, M.IsTrue (eval M f ρ)
  typepreds : ∀ (M : Model κ τ D) c, eval M (T.type c) ρ (M.constant c) →
    ∀ f ∈ U.typepreds c, M.IsTrue (eval M f ρ)
  assertTypepred : ∀ (M : Model κ τ D) state f, facts state M → M.IsTrue (eval M f ρ) →
    facts (U.assertTypepred state f).1 M ∧ (U.assertTypepred state f).2 = false

section Rule

variable {context context' : List (Declaration κ ι)} {bs : Bindings ν κ τ} {e skobody : Expr ν κ τ}
  {terms : List (Option (SkolemTerm ι))} {made : List (ν × κ)} {M : Model κ τ D} {ρ : ν → D}
  {sforms : List (Expr ν κ τ)}

omit [DecidableEq ι] in
theorem refuted_eq_false {δ : Type} {U : TypeFacts κ δ ν τ} {facts : δ → Model κ τ D → Prop} (hU : U.Sound T ρ facts) {state : δ}
    (hstate : facts state M) {fmlas : List (Expr ν κ τ)}
    (h : ∀ f ∈ fmlas, M.IsTrue (eval M f ρ)) : refuted U fmlas state = false := by
  induction fmlas generalizing state with
  | nil => rw [refuted]
  | cons f fmlas ih =>
    rw [List.forall_mem_cons] at h
    obtain ⟨hnext, hfalse⟩ := hU.assertTypepred M state f hstate h.1
    rcases hnew : U.assertTypepred state f with ⟨state', false?⟩
    rw [hnew] at hnext hfalse
    rw [refuted, hnew]
    simp only at hfalse ⊢
    rw [hfalse, Bool.false_or]
    exact ih hnext h.2

theorem Made.fresh (h : Made T context bs terms made) (hdeclared : Declared T context sforms) :
    ∀ a ∈ made, ∀ f ∈ sforms, a.2 ∉ constants f := by
  intro a ha f hf hc
  obtain ⟨hcurrent, hnew⟩ := h.new a ha
  rw [hdeclared.formula f hf a.2 hc hcurrent] at hnew
  exact nomatch hnew

/-- An expression is left as it is, or the new constants are put for variables. -/
theorem skolemizeStep_cases {q : Quantifier} (hnodup : (bound bs).Nodup)
    (h : skolemizeStep T (.quant q bs e) terms context = (skobody, made, context')) :
    (skobody = .quant q bs e ∧ made = [] ∧ context' = context) ∨
      (Made T context bs terms made ∧
        overlap (subBoundvars bs terms) (idBoundvars bs terms) = [] ∧
        skobody = substit (constantAlist made).toSubst (newexpr q (idBoundvars bs terms) e)) := by
  have hunchanged (h' : (Node.quant q bs e, ([] : List (ν × κ)), context) =
      (skobody, made, context')) : skobody = .quant q bs e ∧ made = [] ∧ context' = context := by
    obtain ⟨rfl, rfl, rfl⟩ := h'
    exact ⟨rfl, rfl, rfl⟩
  rw [skolemizeStep] at h
  split at h
  · exact .inl (hunchanged h)
  · rename_i hcheck
    split at h
    · exact .inl (hunchanged h)
    · rename_i hduplicates
      split at h
      · exact .inl (hunchanged h)
      · rename_i hoverlap
        split at h
        · exact .inl (hunchanged h)
        · rcases halist : makeSkolemAlist T (subBoundvars bs terms) context [] with ⟨made', context''⟩
          rw [halist] at h
          obtain ⟨rfl, rfl, rfl⟩ := h
          refine .inr ⟨made_of_makeSkolemAlist ?_ ?_ hnodup halist, not_not.1 hoverlap, rfl⟩
          · exact List.length_eq_zero_iff.1 (not_not.1 hcheck)
          · exact Bool.not_eq_true _ ▸ hduplicates

theorem new_of_skolemizeStep {q : Quantifier} (hnodup : (bound bs).Nodup)
    (h : skolemizeStep T (.quant q bs e) terms context = (skobody, made, context')) :
    ∀ c ∈ made.map Prod.snd, T.current c = true ∧ declared T (T.id c) context = false := by
  rw [List.forall_mem_map]
  obtain ⟨-, rfl, -⟩ | ⟨hmade, -⟩ := skolemizeStep_cases hnodup h
  · exact nofun
  · exact hmade.new

/-- The constants that are declared keep their types. -/
theorem Typed.withConstants (h : Typed T M ρ context) (hdeclared : Declared T context sforms)
    {cs : List κ} (hnew : ∀ c ∈ cs, T.current c = true ∧ declared T (T.id c) context = false)
    {values : κ → D} (hother : ∀ c, c ∉ cs → values c = M.constant c) :
    Typed T (M.withConstants values) ρ context := by
  intro c hc
  have hsame : ∀ c', (T.current c' = true → declared T (T.id c') context = true) →
      M.constant c' = values c' := by
    intro c' hc'
    refine (hother c' fun hmem => ?_).symm
    obtain ⟨hcurrent, hundeclared⟩ := hnew c' hmem
    rw [hc' hcurrent] at hundeclared
    exact nomatch hundeclared
  have hcontext : M.constant c = values c := by
    refine hsame c fun hcurrent => ?_
    rw [declared, List.any_eq_true]
    exact ⟨_, hc, by simp [hcurrent]⟩
  have hvalue := h c hc
  rw [eval_withConstants M (T.type c) fun c' hc' => hsame c' (hdeclared.type c hc c' hc'),
    hcontext] at hvalue
  exact hvalue

/-- A sequent that does not hold does not with values of the constants of the new formula. -/
theorem exists_counterModel {sign : Bool} (hnodup : Proper bs) (hfree : freevars bs = [])
    (hlen : (bound bs).length = terms.length)
    (hdeclared : Declared T context sforms)
    (hmem : signed sign (.quant (skolemQuantifier sign) bs e) ∈ sforms)
    (hstep : skolemizeStep T (.quant (skolemQuantifier sign) bs e) terms context =
      (skobody, made, context')) (hnot : ¬ Holds M ρ sforms) :
    ∃ values : κ → D, (∀ c, c ∉ made.map Prod.snd → values c = M.constant c) ∧
      (∀ a ∈ made, eval (M.withConstants values) (T.type a.2) ρ (values a.2)) ∧
      ¬ Holds (M.withConstants values) ρ (signed sign skobody :: sforms) := by
  obtain ⟨rfl, rfl, rfl⟩ | ⟨hmade, hoverlap, rfl⟩ := skolemizeStep_cases hnodup.nodup hstep
  · refine ⟨M.constant, fun _ _ => rfl, nofun, ?_⟩
    rintro ⟨f, hf, htrue⟩
    obtain rfl | hf := List.mem_cons.1 hf
    · exact hnot ⟨_, hmem, htrue⟩
    · exact hnot ⟨f, hf, htrue⟩
  · have hfresh := hmade.fresh hdeclared
    obtain ⟨ρ', houter, htyped, hbody⟩ :=
      values_of_not_isTrue hnodup fun htrue => hnot ⟨_, hmem, htrue⟩
    obtain ⟨values, hvalues, hother⟩ := exists_values hmade.nodup M.constant ρ'
    have hsame : ∀ f ∈ sforms, ∀ c ∈ constants f, M.constant c = values c := by
      intro f hf c hc
      refine (hother c fun hmem => ?_).symm
      obtain ⟨a, ha, rfl⟩ := List.mem_map.1 hmem
      exact hfresh a ha f hf hc
    have hquant := hsame _ hmem
    rw [constants_signed] at hquant
    have hbs : ∀ c ∈ constants bs, M.constant c = values c := fun c hc =>
      hquant c (by simp [constants, hc])
    refine ⟨values, hother, hmade.typed hfree hoverlap hvalues hbs htyped, ?_⟩
    rintro ⟨f, hf, htrue⟩
    obtain rfl | hf := List.mem_cons.1 hf
    · exact hmade.not_isTrue hnodup hlen hvalues hquant houter htyped hbody htrue
    · rw [← eval_withConstants M f (hsame f hf)] at htrue
      exact hnot ⟨f, hf, htrue⟩

end Rule

end PVS.Quantifiers
