import PVS.Assert.QuantElimSound

/-! When the quantifier that is returned is well scoped and means the same. -/

namespace PVS.Assert

open Library.Telescope

variable {X V T Ty F : Type} [DecidableEq X] {S : QuantSyntax X V T Ty F}

namespace QuantSyntax

variable (q : Quantifier) (bindings : List X) (body : F)

variable (S) in
/-- The bindings that are kept although they have an equation. -/
def putBack : List X :=
  S.keepBindings (S.orderedSubsts q bindings body) [] (S.bindingsFreevars (S.staying q bindings body))

theorem keepBindings_append (substs : List (X × T)) (new more freevars : List X) :
    S.keepBindings substs (new ++ more) freevars = S.keepBindings substs new freevars ++ more := by
  induction hlen : substs.length using Nat.strongRecOn generalizing substs new freevars with
  | ind n ih =>
    rw [keepBindings.eq_1 S substs (new ++ more), keepBindings.eq_1 S substs new]
    generalize hkeep : (fun pair : X × T => decide (pair.1 ∈ freevars)) = keep
    by_cases hkeeps : (substs.filter keep).isEmpty
    · rw [dif_pos hkeeps, dif_pos hkeeps]
    · rw [dif_neg hkeeps, dif_neg hkeeps, ← List.append_assoc]
      exact ih _ (hlen ▸ S.length_setDifference_lt (by simpa using hkeeps)) _ _ _ rfl

theorem newBindings_eq : S.newBindings q bindings body =
    S.putBack q bindings body ++ S.staying q bindings body :=
  keepBindings_append _ [] _ _

variable (S) in
/-- The new body is a constant, which is returned without the quantifier. -/
def Constant : Quantifier → Prop
  | .exist => S.isFalse (S.newBody .exist bindings body) = true ∨
      S.isTrue (S.newBody .exist bindings body) = true ∧
        ∀ b ∈ S.newBindings .exist bindings body, S.nonempty (S.type b) = true
  | .forAll => S.isTrue (S.newBody .forAll bindings body) = true ∨
      S.isFalse (S.newBody .forAll bindings body) = true ∧
        ∀ b ∈ S.newBindings .forAll bindings body, S.nonempty (S.type b) = true

/-- A constant decides the quantifier as the new body does. -/
theorem newExpr_of_constant (h : S.Constant bindings body q) :
    ∃ φ, S.newExpr q (S.newBindings q bindings body) (S.newBody q bindings body) = .formula φ ∧
      S.formFreevars φ = [] ∧
      ((∀ ρ, ¬ S.Decides q φ ρ) ∧ (∀ ρ, ¬ S.Decides q (S.newBody q bindings body) ρ) ∨
        (∀ ρ, S.Decides q φ ρ) ∧ (∀ ρ, S.Decides q (S.newBody q bindings body) ρ) ∧
          ∀ b ∈ S.newBindings q bindings body, S.nonempty (S.type b) = true) := by
  have htrue := S.holds_of_isTrue S.isTrue_trueForm
  have hfalse := S.not_holds_of_isFalse S.isFalse_falseForm
  have htrueFree := S.freevars_of_isTrue S.isTrue_trueForm
  have hfalseFree := S.freevars_of_isFalse S.isFalse_falseForm
  cases q with
  | exist =>
    by_cases hF : S.isFalse (S.newBody .exist bindings body) = true
    · have hbody := S.not_holds_of_isFalse hF
      by_cases hnew : (S.newBindings .exist bindings body).isEmpty
      · exact ⟨_, by rw [newExpr, if_pos hnew], S.freevars_of_isFalse hF, Or.inl ⟨hbody, hbody⟩⟩
      · refine ⟨_, ?_, hfalseFree, Or.inl ⟨hfalse, hbody⟩⟩
        simp only [newExpr, hnew, Bool.false_eq_true, ↓reduceIte, hF]
    · obtain ⟨hT, hne⟩ := h.resolve_left hF
      have hbody := S.holds_of_isTrue hT
      by_cases hnew : (S.newBindings .exist bindings body).isEmpty
      · exact ⟨_, by rw [newExpr, if_pos hnew], S.freevars_of_isTrue hT,
          Or.inr ⟨hbody, hbody, hne⟩⟩
      · refine ⟨_, ?_, htrueFree, Or.inr ⟨htrue, hbody, hne⟩⟩
        simp only [newExpr, hnew, Bool.false_eq_true, ↓reduceIte, hT, hF, List.all_eq_true.2 hne,
          Bool.and_self]
  | forAll =>
    by_cases hT : S.isTrue (S.newBody .forAll bindings body) = true
    · have hbody : ∀ ρ, ¬ S.Decides .forAll (S.newBody .forAll bindings body) ρ :=
        fun ρ h => h (S.holds_of_isTrue hT ρ)
      by_cases hnew : (S.newBindings .forAll bindings body).isEmpty
      · exact ⟨_, by rw [newExpr, if_pos hnew], S.freevars_of_isTrue hT, Or.inl ⟨hbody, hbody⟩⟩
      · refine ⟨_, ?_, htrueFree, Or.inl ⟨fun ρ h => h (htrue ρ), hbody⟩⟩
        simp only [newExpr, hnew, Bool.false_eq_true, ↓reduceIte, hT]
    · obtain ⟨hF, hne⟩ := h.resolve_left hT
      have hbody := S.not_holds_of_isFalse hF
      by_cases hnew : (S.newBindings .forAll bindings body).isEmpty
      · exact ⟨_, by rw [newExpr, if_pos hnew], S.freevars_of_isFalse hF,
          Or.inr ⟨hbody, hbody, hne⟩⟩
      · refine ⟨_, ?_, hfalseFree, Or.inr ⟨hfalse, hbody, hne⟩⟩
        simp only [newExpr, hnew, Bool.false_eq_true, ↓reduceIte, hT, hF, List.all_eq_true.2 hne,
          Bool.and_self]

theorem newExpr_of_not_constant (h : ¬ S.Constant bindings body q) :
    S.newExpr q (S.newBindings q bindings body) (S.newBody q bindings body) =
      if (S.newBindings q bindings body).isEmpty then .formula (S.newBody q bindings body)
      else .quant (S.newBindings q bindings body) (S.newBody q bindings body) := by
  cases q with
  | exist =>
    rw [Constant, not_or, not_and] at h
    simp only [newExpr, h.1, Bool.false_eq_true, ↓reduceIte, Bool.and_eq_true, List.all_eq_true]
    split
    · rfl
    · exact if_neg fun h' => h.2 h'.1 h'.2
  | forAll =>
    rw [Constant, not_or, not_and] at h
    simp only [newExpr, h.1, Bool.false_eq_true, ↓reduceIte, Bool.and_eq_true, List.all_eq_true]
    split
    · rfl
    · exact if_neg fun h' => h.2 h'.1 h'.2

theorem formFreevars_newBody {x : X} (hx : x ∈ S.formFreevars (S.newBody q bindings body)) :
    (∃ φ ∈ S.tcAlist (S.eliminated q bindings body) [], x ∈ S.formFreevars φ) ∨
      x ∈ S.formFreevars (S.formSubstit body (S.eliminated q bindings body)) := by
  cases q with
  | exist => exact S.freevars_makeConjunction hx
  | forAll => exact S.freevars_makeImplication hx

theorem formFreevars_tcc (h : ¬ S.Constant bindings body q) {φ : F}
    (hφ : φ ∈ S.tcAlist (S.eliminated q bindings body) []) :
    S.formFreevars φ ⊆ S.formFreevars (S.newBody q bindings body) := by
  rw [Constant.eq_def] at h
  cases q with
  | exist => exact S.freevars_conjunct (Bool.not_eq_true _ ▸ (not_or.1 h).1) hφ
  | forAll => exact S.freevars_hypothesis (Bool.not_eq_true _ ▸ (not_or.1 h).1) hφ

theorem not_mem_formFreevars_formSubstit {pair : X × T}
    (hpair : pair ∈ S.eliminated q bindings body) :
    pair.1 ∉ S.formFreevars (S.formSubstit body (S.eliminated q bindings body)) := by
  intro hx
  obtain ⟨-, hnone⟩ | ⟨p, hp, hx⟩ := S.freevars_formSubstit hx
  · rw [List.lookup_eq_none_iff] at hnone
    exact absurd (hnone pair hpair) (by simp)
  · exact eliminated_closed q bindings body hp hpair hx

end QuantSyntax

namespace QuantExpr

open QuantSyntax

variable (q : Quantifier) (e : QuantExpr S) {ρ ρ' : X → V}

/-- The quantifier over the bindings that are left, with the memberships stated. -/
def statedHolds : Quantifier → (X → V) → Prop
  | .exist => existsAll (fun b => S.mem (S.type b)) (e.kept .exist) fun ρ =>
      e.Memberships .exist ρ ∧
        S.holds e.body (substEnv S.eval (S.eliminated .exist e.bindings e.body) ρ)
  | .forAll => forallAll (fun b => S.mem (S.type b)) (e.kept .forAll) fun ρ =>
      e.Memberships .forAll ρ →
        S.holds e.body (substEnv S.eval (S.eliminated .forAll e.bindings e.body) ρ)

/-- What is returned is well scoped and says what the quantifier says. -/
def Eliminates : Prop :=
  ∃ r, S.assertIfQuant q e.bindings e.body = some r ∧
    S.resultFreevars r ⊆ S.quantFreevars e.bindings e.body ∧ S.resultInOrder r ∧
    ∀ ρ, S.Typed (S.quantFreevars e.bindings e.body) ρ →
      (S.resultHolds q r ρ ↔ S.holdsQuant q e.bindings e.body ρ) ∧
        (S.resultHolds q r ρ ↔ e.statedHolds q ρ)

/-- No type of a binding that is put back mentions one that it is put before, and no membership
mentions an eliminated variable. -/
def LeavesNothing : Prop :=
  (InOrder (fun b => S.tyFreevars (S.type b)) (S.putBack q e.bindings e.body) ∧
    ∀ b ∈ S.putBack q e.bindings e.body, ∀ x ∈ S.staying q e.bindings e.body,
      x ∉ S.tyFreevars (S.type b)) ∧
  ∀ φ ∈ S.tcAlist (S.eliminated q e.bindings e.body) [],
    ∀ pair ∈ S.eliminated q e.bindings e.body, pair.1 ∉ S.formFreevars φ

theorem holdsQuant_iff (q : Quantifier) (bindings : List X) (φ : F) (ρ : X → V) :
    S.holdsQuant q bindings φ ρ ↔
      (q = .exist ↔ existsAll (fun b => S.mem (S.type b)) bindings (S.Decides q φ) ρ) := by
  cases q with
  | exist => simp [holdsQuant_exist]
  | forAll => simp [holdsQuant_forAll]

theorem statedHolds_iff (ρ : X → V) : e.statedHolds q ρ ↔ S.holdsQuant q e.bindings e.body ρ := by
  cases q with
  | exist => exact e.existsAll_stated .exist ρ
  | forAll =>
    rw [holdsQuant_forAll, ← e.existsAll_stated .forAll ρ]
    refine (forallAll_iff _ _ _ ρ).trans (not_congr (existsAll_congr _ (fun ρ => ?_) _ ρ))
    exact Classical.not_imp

theorem newBindings_inOrder_iff :
    InOrder (fun b => S.tyFreevars (S.type b)) (S.newBindings q e.bindings e.body) ↔
      InOrder (fun b => S.tyFreevars (S.type b)) (S.putBack q e.bindings e.body) ∧
        ∀ b ∈ S.putBack q e.bindings e.body, ∀ x ∈ S.staying q e.bindings e.body,
          x ∉ S.tyFreevars (S.type b) := by
  rw [newBindings_eq, inOrder_append]
  exact and_congr_right' (and_iff_right (e.inOrder.sublist _ List.filter_sublist))

theorem decides_congr {φ : F} (h : ∀ x ∈ S.formFreevars φ, ρ x = ρ' x) :
    S.Decides q φ ρ ↔ S.Decides q φ ρ' := by
  cases q with
  | exist => exact S.holds_congr h
  | forAll => exact not_congr (S.holds_congr h)

theorem existsAll_newBindings (hρ : S.Typed (S.quantFreevars e.bindings e.body) ρ)
    (horder : InOrder (fun b => S.tyFreevars (S.type b)) (S.newBindings q e.bindings e.body))
    (hfree : ∀ pair ∈ S.eliminated q e.bindings e.body,
      pair.1 ∉ S.formFreevars (S.newBody q e.bindings e.body)) :
    existsAll (fun b => S.mem (S.type b)) (S.newBindings q e.bindings e.body)
        (S.Decides q (S.newBody q e.bindings e.body)) ρ ↔
      existsAll (fun b => S.mem (S.type b)) e.bindings (S.Decides q e.body) ρ := by
  rw [← e.existsAll_stated q ρ, existsAll_iff_extends horder (newBindings_nodup q _ _ e.nodup),
    existsAll_iff_extends (e.kept_inOrder q) (e.kept_nodup q)]
  simp only [extends_kept]
  refine exists_congr fun ρ' => and_congr_right fun hext => ?_
  rw [← e.decides_newBody_iff_stated q hρ hext]
  refine decides_congr q fun x hx => (e.substEnv_of_not_eliminated q (fun pair hpair hpx => ?_) ρ').symm
  exact hfree pair hpair (hpx ▸ hx)

theorem not_existsAll_of_newBody (hρ : S.Typed (S.quantFreevars e.bindings e.body) ρ)
    (h : ∀ ρ, ¬ S.Decides q (S.newBody q e.bindings e.body) ρ) :
    ¬ existsAll (fun b => S.mem (S.type b)) e.bindings (S.Decides q e.body) ρ := by
  rw [← e.existsAll_stated q ρ, existsAll_iff_extends (e.kept_inOrder q) (e.kept_nodup q)]
  rintro ⟨ρ', hext, hstated⟩
  exact h _ ((e.decides_newBody_iff_stated q hρ ((e.extends_kept q).1 hext)).2 hstated)

theorem existsAll_of_newBody (hρ : S.Typed (S.quantFreevars e.bindings e.body) ρ)
    (h : ∀ ρ, S.Decides q (S.newBody q e.bindings e.body) ρ)
    (hne : ∀ b ∈ S.newBindings q e.bindings e.body, S.nonempty (S.type b) = true) :
    existsAll (fun b => S.mem (S.type b)) e.bindings (S.Decides q e.body) ρ := by
  rw [← e.existsAll_stated q ρ, existsAll_iff_extends (e.kept_inOrder q) (e.kept_nodup q)]
  have hsub : ∀ b ∈ e.kept q, b ∈ e.bindings := fun b hb => (List.mem_filter.1 hb).1
  have hcongr : ∀ b ρ ρ', (∀ x ∈ S.tyFreevars (S.type b), ρ x = ρ' x) →
      ∀ v, S.mem (S.type b) ρ v ↔ S.mem (S.type b) ρ' v := fun b _ _ h => S.mem_congr h
  obtain ⟨ρ', hext⟩ : ∃ ρ', Extends S (e.kept q) ρ ρ' := by
    refine exists_of_nonempty hcongr (e.kept_inOrder q) (e.kept_nodup q)
      (fun b hb ρ hdeps => S.exists_mem_of_nonempty (hne b ((e.mem_kept q).1 hb)) ρ hdeps)
      (· ∈ S.quantFreevars e.bindings e.body) ρ hρ (fun x hx b hb => e.outer x hx b (hsub b hb))
      fun b hb x hx => ?_
    by_cases hbound : x ∈ e.bindings
    · obtain hnew | ⟨pair, hpair, rfl⟩ :=
        (mem_bindings_iff (S := S) q e.bindings e.body e.nodup).1 hbound
      · exact Or.inl ((e.mem_kept q).2 hnew)
      · exact absurd hx (newBindings_closed q e.bindings e.body e.nodup hpair ((e.mem_kept q).1 hb))
    · exact Or.inr (List.mem_append_left _ (mem_bindingsFreevars (hsub b hb) hx hbound))
  exact ⟨ρ', hext, (e.decides_newBody_iff_stated q hρ ((e.extends_kept q).1 hext)).1 (h _)⟩

/-- The free variables of the new quantifier are free before. -/
theorem freevars_newBindings (horder : InOrder (fun b => S.tyFreevars (S.type b))
    (S.newBindings q e.bindings e.body)) (hfree : ∀ pair ∈ S.eliminated q e.bindings e.body,
      pair.1 ∉ S.formFreevars (S.newBody q e.bindings e.body)) :
    S.quantFreevars (S.newBindings q e.bindings e.body) (S.newBody q e.bindings e.body) ⊆
      S.quantFreevars e.bindings e.body := by
  have hunbound : ∀ x, x ∉ S.newBindings q e.bindings e.body →
      (∀ pair ∈ S.eliminated q e.bindings e.body, pair.1 ≠ x) → x ∉ e.bindings := by
    intro x hnew helim hb
    obtain hb | ⟨pair, hpair, hpx⟩ :=
      (mem_bindings_iff (S := S) q e.bindings e.body e.nodup).1 hb
    · exact hnew hb
    · exact helim pair hpair hpx
  have hbody : ∀ x ∈ S.formFreevars e.body, x ∉ e.bindings →
      x ∈ S.quantFreevars e.bindings e.body := fun x hx hb =>
    List.mem_append_right _ (List.mem_filter.2 ⟨hx, decide_eq_true hb⟩)
  have htype : ∀ b ∈ e.bindings, ∀ x ∈ S.tyFreevars (S.type b), x ∉ e.bindings →
      x ∈ S.quantFreevars e.bindings e.body := fun b hb x hx hnot =>
    List.mem_append_left _ (mem_bindingsFreevars hb hx hnot)
  intro x hx
  obtain hx | hx := List.mem_append.1 hx
  · obtain ⟨b, hb, hxb⟩ := of_mem_bindingsFreevars hx
    refine htype b (newBindings_subset q _ _ e.nodup hb) x hxb (hunbound x ?_ ?_)
    · exact fun hnew => not_mem_bindingsFreevars horder hnew hx
    · exact fun pair hpair hpx =>
        newBindings_closed q e.bindings e.body e.nodup hpair hb (hpx ▸ hxb)
  · obtain ⟨hx, hnew⟩ := List.mem_filter.1 hx
    have hb := hunbound x (of_decide_eq_true hnew) fun pair hpair hpx =>
      hfree pair hpair (hpx ▸ hx)
    obtain ⟨φ, hφ, hx⟩ | hx := formFreevars_newBody q e.bindings e.body hx
    · obtain ⟨pair, hpair, hx⟩ | ⟨pair, hpair, hx⟩ := of_mem_freevars_tcAlist hφ hx
      · rw [List.append_nil] at hpair
        exact hbody x (freevars_eliminated q e.bindings e.body hpair hx) hb
      · refine htype pair.1 ?_ x hx hb
        exact (mem_bindings_iff q e.bindings e.body e.nodup).2 (Or.inr ⟨pair, hpair, rfl⟩)
    · obtain ⟨hx, -⟩ | ⟨pair, hpair, hx⟩ := S.freevars_formSubstit hx
      · exact hbody x hx hb
      · exact hbody x (freevars_eliminated q e.bindings e.body hpair hx) hb

/-- What is returned when variables are eliminated. -/
def returned : QuantResult X F :=
  S.newExpr q (S.newBindings q e.bindings e.body) (S.newBody q e.bindings e.body)

theorem eliminates_of_eliminated_nil (h : S.eliminated q e.bindings e.body = []) :
    e.Eliminates q := by
  refine ⟨.quant e.bindings e.body, ?_, List.Subset.refl _, e.inOrder,
    fun ρ _ => ⟨Iff.rfl, (e.statedHolds_iff q ρ).symm⟩⟩
  cases q with
  | exist => rw [assertIfQuant, assertIfExists, h, List.isEmpty_nil, if_pos rfl]
  | forAll => rw [assertIfQuant, assertIfForall, h, List.isEmpty_nil, if_pos rfl]

theorem eliminates_iff_returned (h : S.eliminated q e.bindings e.body ≠ []) :
    e.Eliminates q ↔ S.resultFreevars (e.returned q) ⊆ S.quantFreevars e.bindings e.body ∧
      S.resultInOrder (e.returned q) ∧
      ∀ ρ, S.Typed (S.quantFreevars e.bindings e.body) ρ →
        (S.resultHolds q (e.returned q) ρ ↔ S.holdsQuant q e.bindings e.body ρ) := by
  have hempty : (S.eliminated q e.bindings e.body).isEmpty ≠ true := mt List.isEmpty_iff.1 h
  have hreturned : ∀ r, S.assertIfQuant q e.bindings e.body = some r ∧
      S.resultFreevars r ⊆ S.quantFreevars e.bindings e.body ↔
      r = e.returned q ∧ S.resultFreevars r ⊆ S.quantFreevars e.bindings e.body := by
    intro r
    refine and_congr_left fun hfree => ?_
    cases q with
    | exist =>
      rw [assertIfQuant, assertIfExists, if_neg hempty, Option.some_inj, returned, eq_comm]
    | forAll =>
      rw [assertIfQuant, assertIfForall, if_neg hempty]
      change (if (S.resultFreevars (e.returned .forAll)).all _ = true then _ else none) = _ ↔ _
      split
      · rw [Option.some_inj, eq_comm, returned]
      next hnot =>
        refine iff_of_false (by simp) fun hr => hnot ?_
        rw [List.all_eq_true]
        exact fun x hx => decide_eq_true (hfree (hr ▸ hx))
  constructor
  · rintro ⟨r, hr, hfree, horder, hholds⟩
    obtain ⟨rfl, hfree⟩ := (hreturned r).1 ⟨hr, hfree⟩
    exact ⟨hfree, horder, fun ρ hρ => (hholds ρ hρ).1⟩
  · rintro ⟨hfree, horder, hholds⟩
    refine ⟨_, ((hreturned _).2 ⟨rfl, hfree⟩).1, hfree, horder, fun ρ hρ => ⟨hholds ρ hρ, ?_⟩⟩
    rw [hholds ρ hρ, statedHolds_iff]

theorem eliminates_of_constant (h : S.eliminated q e.bindings e.body ≠ [])
    (hconst : S.Constant e.bindings e.body q) : e.Eliminates q := by
  obtain ⟨φ, hφ, hfree, hdecides⟩ := newExpr_of_constant q e.bindings e.body hconst
  rw [e.eliminates_iff_returned q h, returned, hφ]
  have hholds : ∀ ρ, S.resultHolds q (.formula φ) ρ ↔ (q = .exist ↔ S.Decides q φ ρ) := by
    intro ρ
    cases q with
    | exist => exact holdsQuant_iff .exist [] φ ρ
    | forAll => exact holdsQuant_iff .forAll [] φ ρ
  refine ⟨?_, trivial, fun ρ hρ => ?_⟩
  · rw [resultFreevars, hfree]
    exact List.nil_subset _
  rw [hholds, holdsQuant_iff]
  refine iff_congr Iff.rfl ?_
  obtain ⟨hφ, hbody⟩ | ⟨hφ, hbody, hne⟩ := hdecides
  · exact iff_of_false (hφ ρ) (e.not_existsAll_of_newBody q hρ hbody)
  · exact iff_of_true (hφ ρ) (e.existsAll_of_newBody q hρ hbody hne)

theorem eliminates_of_leavesNothing (h : S.eliminated q e.bindings e.body ≠ [])
    (hconst : ¬ S.Constant e.bindings e.body q) (hleaves : e.LeavesNothing q) :
    e.Eliminates q := by
  obtain ⟨hback, htccs⟩ := hleaves
  have horder := (e.newBindings_inOrder_iff q).2 hback
  have hfree : ∀ pair ∈ S.eliminated q e.bindings e.body,
      pair.1 ∉ S.formFreevars (S.newBody q e.bindings e.body) := by
    intro pair hpair hx
    obtain ⟨φ, hφ, hx⟩ | hx := formFreevars_newBody q e.bindings e.body hx
    · exact htccs φ hφ pair hpair hx
    · exact not_mem_formFreevars_formSubstit q e.bindings e.body hpair hx
  have hsub := e.freevars_newBindings q horder hfree
  rw [e.eliminates_iff_returned q h, returned, newExpr_of_not_constant q e.bindings e.body hconst]
  have hholds : ∀ ρ, S.Typed (S.quantFreevars e.bindings e.body) ρ →
      (S.holdsQuant q (S.newBindings q e.bindings e.body) (S.newBody q e.bindings e.body) ρ ↔
        S.holdsQuant q e.bindings e.body ρ) := by
    intro ρ hρ
    rw [holdsQuant_iff, holdsQuant_iff, e.existsAll_newBindings q hρ horder hfree]
  by_cases hnew : S.newBindings q e.bindings e.body = []
  · rw [hnew] at hsub hholds
    rw [hnew, List.isEmpty_nil, if_pos rfl]
    refine ⟨fun x hx => hsub ?_, trivial, fun ρ hρ => ?_⟩
    · have hx : x ∈ S.formFreevars (S.newBody q e.bindings e.body) := hx
      simpa [quantFreevars, bindingsFreevars] using hx
    · rw [← hholds ρ hρ, resultHolds]
      cases q <;> rfl
  · rw [if_neg (mt List.isEmpty_iff.1 hnew)]
    exact ⟨hsub, horder, hholds⟩

end QuantExpr

end PVS.Assert
