import PVS.Prover.SplitRewrite

/-! Rules that are split from a lemma hold in every model of it. -/

namespace PVS.Prover.Rewrites

open Library.Telescope

variable {X : Type} [DecidableEq X] {α : Kind → Type} {D : Declarations X α}

attribute [local simp] freevarsList Expr.freevars

/-! ### Free variables -/

@[simp] theorem mem_freevarsList {x b : X} {bs : List X} : x ∈ freevarsList D (b :: bs) ↔
    (x ∈ D.typeFreevars b ∨ x ∈ freevarsList D bs) ∧ x ≠ b := by
  simp [freevarsList]

@[simp] theorem mem_freevars_forAll {x : X} {bs : List X} {e : Formula X α} :
    x ∈ Expr.freevars D (.forAll bs e) ↔ x ∈ freevarsList D bs ∨ x ∈ e.freevars D ∧ x ∉ bs := by
  simp [Expr.freevars]

theorem mem_freevarsList_of_type {x b : X} {bs : List X} (hb : b ∈ bs)
    (h : x ∈ D.typeFreevars b) (hx : x ∉ bs) : x ∈ freevarsList D bs := by
  induction bs with
  | nil => simp at hb
  | cons c bs ih =>
    rw [List.mem_cons, not_or] at hx
    rw [mem_freevarsList]
    obtain rfl | hb := List.mem_cons.1 hb
    · exact ⟨.inl h, hx.1⟩
    · exact ⟨.inr (ih hb hx.2), hx.1⟩

theorem exists_of_mem_freevarsList {x : X} {bs : List X} (h : x ∈ freevarsList D bs) :
    ∃ b ∈ bs, x ∈ D.typeFreevars b := by
  induction bs with
  | nil => simp [freevarsList] at h
  | cons b bs ih =>
    rw [mem_freevarsList] at h
    obtain h | h := h.1
    · exact ⟨b, List.mem_cons_self .., h⟩
    · obtain ⟨c, hc, h⟩ := ih h
      exact ⟨c, List.mem_cons_of_mem _ hc, h⟩

theorem not_mem_freevarsList {b : X} {bs : List X} (horder : InOrder D.typeFreevars bs)
    (hb : b ∈ bs) : b ∉ freevarsList D bs := by
  induction bs with
  | nil => simp at hb
  | cons c bs ih =>
    rw [mem_freevarsList]
    rintro ⟨h | h, hne⟩
    · exact horder.1 b hb h
    · exact ih horder.2 ((List.mem_cons.1 hb).resolve_left hne) h

variable {V : Type} (I : Interpretation D V)

theorem forallAll_agree {bs : List X} {P : (X → V) → Prop} {frees : List X}
    (hP : ∀ ρ ρ', (∀ x ∈ frees, ρ x = ρ' x) → (P ρ ↔ P ρ')) {ρ ρ' : X → V}
    (h : ∀ x, x ∈ freevarsList D bs ∨ x ∈ frees ∧ x ∉ bs → ρ x = ρ' x) :
    forallAll I.mem bs P ρ ↔ forallAll I.mem bs P ρ' := by
  induction bs generalizing ρ ρ' with
  | nil => exact hP ρ ρ' fun x hx => h x (.inr ⟨hx, List.not_mem_nil⟩)
  | cons b bs ih =>
    have hmem : ∀ v, I.mem b ρ v ↔ I.mem b ρ' v := by
      refine I.mem_congr b ρ ρ' fun x hx => h x (.inl (mem_freevarsList.2 ⟨.inl hx, ?_⟩))
      rintro rfl
      exact D.not_self x hx
    have hrest : ∀ v, forallAll I.mem bs P (Function.update ρ b v) ↔
        forallAll I.mem bs P (Function.update ρ' b v) := by
      refine fun v => ih fun x hx => ?_
      by_cases hxb : x = b
      · rw [hxb, Function.update_self, Function.update_self]
      · rw [Function.update_of_ne hxb, Function.update_of_ne hxb]
        refine h x ?_
        obtain hx | ⟨hx, hbs⟩ := hx
        · exact .inl (mem_freevarsList.2 ⟨.inr hx, hxb⟩)
        · exact .inr ⟨hx, by simp [hxb, hbs]⟩
    rw [forallAll, forallAll]
    exact forall_congr' fun v => by rw [hmem v, hrest v]

/-- An expression depends on its free variables only. -/
theorem Expr.eval_congr {k : Kind} (e : Expr X α k) {ρ ρ' : X → V}
    (h : ∀ x ∈ e.freevars D, ρ x = ρ' x) : e.eval I ρ = e.eval I ρ' := by
  induction e generalizing ρ ρ' with
  | other a => exact I.value_congr a ρ ρ' h
  | truth b => rfl
  | equation left right ihl ihr | iff left right ihl ihr | implication left right ihl ihr
  | conjunction left right ihl ihr =>
    simp only [Expr.freevars, List.mem_union_iff] at h
    simp only [Expr.eval, ihl fun x hx => h x (.inl hx), ihr fun x hx => h x (.inr hx)]
  | negation argument ih =>
    simp only [Expr.eval, ih h]
  | forAll bs e ih =>
    refine propext (forallAll_agree I (fun ρ ρ' hρ => (ih hρ).to_iff) fun x hx => h x ?_)
    exact mem_freevars_forAll.2 hx

/-! ### Bindings -/

theorem relevantBindingsStar_append (frees bs rbindings : List X) (b : X) :
    relevantBindingsStar D frees (bs ++ [b]) rbindings =
      relevantBindingsStar D frees [b] (relevantBindingsStar D frees bs rbindings) := by
  induction bs generalizing rbindings with
  | nil => rfl
  | cons c bs ih => exact ih _

theorem relevantBindings_cons (b : X) (bs : List X) (e : Formula X α) :
    relevantBindings D (b :: bs) e =
      if ¬ D.nonempty b ∨ b ∈ e.freevars D ∨ ∃ y ∈ relevantBindings D bs e, b ∈ D.typeFreevars y then
        b :: relevantBindings D bs e
      else relevantBindings D bs e := by
  rw [relevantBindings, List.reverse_cons, relevantBindingsStar_append]
  rfl

theorem relevantBindings_sublist (bs : List X) (e : Formula X α) :
    (relevantBindings D bs e).Sublist bs := by
  induction bs with
  | nil => exact .slnil
  | cons b bs ih =>
    rw [relevantBindings_cons]
    split
    · exact ih.cons_cons b
    · exact ih.cons b

/-- A dropped binding is flagged, and occurs neither in the expression nor in the type of a kept
one. -/
theorem not_mem_relevantBindings {bs : List X} {e : Formula X α} {b : X}
    (horder : InOrder D.typeFreevars bs) (hb : b ∈ bs) (h : b ∉ relevantBindings D bs e) :
    D.nonempty b = true ∧ b ∉ e.freevars D ∧
      ∀ y ∈ relevantBindings D bs e, b ∉ D.typeFreevars y := by
  induction bs with
  | nil => simp at hb
  | cons c bs ih =>
    rw [relevantBindings_cons] at h ⊢
    obtain rfl | hb := List.mem_cons.1 hb
    · split at h
      · simp at h
      · rename_i hcond
        rw [if_neg hcond]
        push Not at hcond
        exact ⟨by simpa using hcond.1, hcond.2.1, hcond.2.2⟩
    · have hc : b ∉ D.typeFreevars c := horder.1 b (List.mem_cons_of_mem _ hb)
      split at h
      · rename_i hcond
        rw [List.mem_cons, not_or] at h
        obtain ⟨hflag, hfree, htypes⟩ := ih horder.2 hb h.2
        rw [if_pos hcond]
        exact ⟨hflag, hfree, List.forall_mem_cons.2 ⟨hc, htypes⟩⟩
      · rename_i hcond
        rw [if_neg hcond]
        exact ih horder.2 hb h

/-! ### Scopes -/

theorem mem_freevars_of_type {form : Formula X α} {x y : X} (hy : y ∈ allBindings form)
    (h : x ∈ D.typeFreevars y) (hx : x ∉ allBindings form) : x ∈ form.freevars D := by
  induction form using allBindings.induct with
  | case1 bs e ih =>
    simp only [allBindings, List.mem_append, not_or] at hy hx
    rw [mem_freevars_forAll]
    obtain hy | hy := hy
    · exact .inl (mem_freevarsList_of_type hy h hx.1)
    · exact .inr ⟨ih hy hx.2, hx.1⟩
  | case2 form hform => simp [allBindings] at hy

theorem not_mem_freevars {form : Formula X α} (horder : InOrder D.typeFreevars (allBindings form))
    {b : X} (hb : b ∈ allBindings form) : b ∉ form.freevars D := by
  induction form using allBindings.induct with
  | case1 bs e ih =>
    simp only [allBindings] at horder hb
    obtain ⟨hbs, he, hcross⟩ := (inOrder_append _).1 horder
    rw [mem_freevars_forAll]
    rintro (h | ⟨h, hnot⟩)
    · obtain hb | hb := List.mem_append.1 hb
      · exact not_mem_freevarsList hbs hb h
      · obtain ⟨c, hc, h⟩ := exists_of_mem_freevarsList h
        exact hcross c hc b hb h
    · exact ih he ((List.mem_append.1 hb).resolve_left hnot) h
  | case2 form hform => simp [allBindings] at hb

theorem allRelevant_sublist (form : Formula X α) :
    (allRelevant D form).Sublist (allBindings form) := by
  induction form using allBindings.induct with
  | case1 bs e ih =>
    rw [allRelevant, allBindings]
    exact (relevantBindings_sublist bs e).append ih
  | case2 form hform => simp [allBindings, allRelevant]

theorem Scoped.expression {bs : List X} {e : Formula X α} (h : Scoped D (.forAll bs e)) :
    Scoped D e := by
  obtain ⟨horder, hnodup, houter⟩ := h
  rw [allBindings] at horder hnodup houter
  obtain ⟨hbs, he, hcross⟩ := (inOrder_append _).1 horder
  refine ⟨he, (List.nodup_append.1 hnodup).2.1, fun x hx b hb => ?_⟩
  by_cases hxb : x ∈ bs
  · exact hcross x hxb b hb
  · exact houter x (mem_freevars_forAll.2 (.inr ⟨hx, hxb⟩)) b (List.mem_append_right bs hb)

/-! ### Rules -/

theorem Rule.mentions_whole {form : Formula X α} {x : X} :
    (Rule.whole form).Mentions D x ↔ x ∈ form.freevars D := by
  simp [Rule.Mentions, Rule.whole, Expr.freevars]

theorem Rule.holds_whole {form : Formula X α} {ρ : X → V} (h : form.eval I ρ) :
    (Rule.whole form).Holds I ρ := fun _ => propext ⟨fun _ => rfl, fun _ => h⟩

theorem splitSides_mentions {k : Kind} {form : Formula X α} {vars : List X} {lhs rhs : Expr X α k}
    (hform : ∀ x, x ∈ lhs.freevars D ∨ x ∈ rhs.freevars D → x ∈ form.freevars D) {x : X}
    (h : (splitSides D form vars lhs rhs).Mentions D x) : x ∈ form.freevars D := by
  rw [splitSides] at h
  split at h
  · obtain h | h | ⟨hyp, hhyp, -⟩ := h
    · exact hform x (.inl h)
    · exact hform x (.inr h)
    · cases hhyp
  · exact Rule.mentions_whole.1 h

theorem splitSides_rhs {k : Kind} {form : Formula X α} {vars : List X} {lhs rhs : Expr X α k} :
    (splitSides D form vars lhs rhs).rhs.freevars D ⊆
      vars ++ (splitSides D form vars lhs rhs).lhs.freevars D := by
  by_cases h : rhs.freevars D ⊆ vars ++ lhs.freevars D
  · rw [splitSides, if_pos h]
    exact h
  · rw [splitSides, if_neg h]
    exact List.nil_subset _

theorem splitSides_holds {k : Kind} {form : Formula X α} {vars : List X} {lhs rhs : Expr X α k}
    {ρ : X → V} (h : form.eval I ρ) (heq : form.eval I ρ → lhs.eval I ρ = rhs.eval I ρ) :
    (splitSides D form vars lhs rhs).Holds I ρ := by
  rw [splitSides]
  split
  · exact fun _ => heq h
  · exact Rule.holds_whole I h

/-- The parts are made of those of the formula. -/
theorem splitRewriteStar_mentions {vars : List X} {rl : Bool} {form : Formula X α} {x : X}
    (h : (splitRewriteStar D vars rl form).Mentions D x) : x ∈ form.freevars D := by
  fun_induction splitRewriteStar D vars rl form with
  | case1 | case3 => exact splitSides_mentions (fun x hx => by simpa [Expr.freevars] using hx.symm) h
  | case2 | case4 => exact splitSides_mentions (fun x hx => by simpa [Expr.freevars] using hx) h
  | case5 left right rule ih =>
    simp only [Expr.freevars, List.mem_union_iff]
    obtain h | h | ⟨hyp, hhyp, h⟩ := h
    · exact .inr (ih (.inl h))
    · exact .inr (ih (.inr (.inl h)))
    · obtain rfl := Option.some.inj hhyp
      cases hrule : rule.hyp with
      | none => exact .inl (by simpa [hrule] using h)
      | some inner =>
        simp only [hrule, Expr.freevars, List.mem_union_iff] at h
        exact h.imp_right fun h => ih (.inr (.inr ⟨inner, hrule, h⟩))
  | case6 argument => simpa [Rule.Mentions, Expr.freevars] using h
  | case7 form => exact Rule.mentions_whole.1 h

theorem splitRewriteStar_rhs (vars : List X) (rl : Bool) (form : Formula X α) :
    (splitRewriteStar D vars rl form).rhs.freevars D ⊆
      vars ++ (splitRewriteStar D vars rl form).lhs.freevars D := by
  fun_induction splitRewriteStar D vars rl form with
  | case1 | case2 | case3 | case4 => exact splitSides_rhs
  | case5 => assumption
  | case6 | case7 => exact List.nil_subset _

theorem splitRewriteStar_holds (vars : List X) (rl : Bool) {form : Formula X α} {ρ : X → V}
    (h : form.eval I ρ) : (splitRewriteStar D vars rl form).Holds I ρ := by
  fun_induction splitRewriteStar D vars rl form with
  | case1 => exact splitSides_holds I h Eq.symm
  | case2 => exact splitSides_holds I h id
  | case3 => exact splitSides_holds I h fun h => propext h.symm
  | case4 => exact splitSides_holds I h propext
  | case5 left right rule ih =>
    intro hhyp
    replace hhyp := hhyp _ rfl
    cases hrule : rule.hyp with
    | none =>
      rw [hrule] at hhyp
      exact ih (h hhyp) fun hyp hmem => nomatch hrule.symm.trans hmem
    | some inner =>
      rw [hrule] at hhyp
      refine ih (h hhyp.1) fun hyp hmem => ?_
      obtain rfl := Option.some.inj (hrule.symm.trans hmem)
      exact hhyp.2
  | case6 argument => exact fun _ => propext ⟨fun harg => absurd harg h, nofun⟩
  | case7 form => exact Rule.holds_whole I h

/-! ### Quantifiers -/

/-- What holds of the rule of a whole formula, and of a rule that passes the test -/
theorem covered_cases {form : Formula X α} {givenVars forallVars : List X} {rule : Rule X α}
    {P : Rule X α → Prop} (hwhole : P (.whole form))
    (hrule : forallVars ⊆ givenVars ++ rule.lhs.freevars D → P rule) :
    P (covered D form givenVars forallVars rule) := by
  rw [covered]
  split
  · exact hrule ‹_›
  · exact hwhole

variable {givenVars : List X} {rl : Bool}

theorem splitRewrite_mentions {form : Formula X α} {forallVars : List X} {x : X}
    (h : (splitRewrite D givenVars rl form forallVars).Mentions D x) :
    x ∈ form.freevars D ∨ x ∈ allBindings form := by
  revert h
  fun_induction splitRewrite D givenVars rl form forallVars with
  | case1 bs e forallVars ih =>
    refine covered_cases (P := fun rule => rule.Mentions D x → _)
      (fun h => .inl (Rule.mentions_whole.1 h)) fun _ h => ?_
    rw [mem_freevars_forAll, allBindings, List.mem_append]
    by_cases hx : x ∈ bs
    · exact .inr (.inl hx)
    · exact (ih h).imp (fun h => .inr ⟨h, hx⟩) .inr
  | case2 form forallVars hform =>
    refine covered_cases (P := fun rule => rule.Mentions D x → _)
      (fun h => .inl (Rule.mentions_whole.1 h)) fun _ h => .inl (splitRewriteStar_mentions h)

theorem Scoped.not_mem_inner {bs : List X} {e : Formula X α} (h : Scoped D (.forAll bs e)) {b : X}
    (hb : b ∈ bs) : b ∉ allBindings e := by
  have hnodup := h.nodup
  rw [allBindings] at hnodup
  exact fun hbound => (List.nodup_append.1 hnodup).2.2 b hb b hbound rfl

theorem Scoped.inOrder_bindings {bs : List X} {e : Formula X α} (h : Scoped D (.forAll bs e)) :
    InOrder D.typeFreevars bs := by
  have horder := h.inOrder
  rw [allBindings] at horder
  exact ((inOrder_append _).1 horder).1

/-- A dropped binding of a quantifier does not occur in a rule for the expression under it. -/
theorem not_mentions_dropped {bs : List X} {e : Formula X α} (hscope : Scoped D (.forAll bs e))
    {b : X} (hb : b ∈ bs) (hdrop : b ∉ relevantBindings D bs e) (forallVars : List X) :
    ¬ (splitRewrite D givenVars rl e forallVars).Mentions D b := by
  intro h
  obtain h | h := splitRewrite_mentions h
  · exact (not_mem_relevantBindings hscope.inOrder_bindings hb hdrop).2.1 h
  · exact hscope.not_mem_inner hb h

/-- The variables of the right-hand side and of the condition are given or on the left. -/
theorem splitRewrite_covers {form : Formula X α} {forallVars : List X}
    (hscope : Scoped D form) {b : X} (hb : b ∈ allBindings form ∨ b ∈ forallVars)
    (h : (splitRewrite D givenVars rl form forallVars).Mentions D b) :
    b ∈ givenVars ++ (splitRewrite D givenVars rl form forallVars).lhs.freevars D := by
  revert h
  fun_induction splitRewrite D givenVars rl form forallVars with
  | case1 bs e forallVars ih =>
    refine covered_cases (P := fun rule => rule.Mentions D b → b ∈ _ ++ rule.lhs.freevars D)
      (fun h => List.mem_append_right _ (Rule.mentions_whole.1 h)) fun _ h => ?_
    rw [allBindings, List.mem_append] at hb
    obtain (hb | hb) | hb := hb
    · refine ih hscope.expression (.inr (List.mem_append_left _ ?_)) h
      by_contra hdrop
      exact not_mentions_dropped hscope hb hdrop _ h
    · exact ih hscope.expression (.inl hb) h
    · exact ih hscope.expression (.inr (List.mem_append_right _ hb)) h
  | case2 form forallVars hform =>
    refine covered_cases (P := fun rule => rule.Mentions D b → b ∈ _ ++ rule.lhs.freevars D)
      (fun h => List.mem_append_right _ (Rule.mentions_whole.1 h)) fun hcover _ => hcover ?_
    exact hb.resolve_left (by simp [allBindings])

/-- A dropped variable does not occur in the rule. -/
theorem splitRewrite_dropped {form : Formula X α} {forallVars : List X} (hscope : Scoped D form)
    {b : X} (hb : b ∈ allBindings form) (hdrop : b ∉ allRelevant D form) :
    ¬ (splitRewrite D givenVars rl form forallVars).Mentions D b := by
  have hfree := not_mem_freevars hscope.inOrder hb
  fun_induction splitRewrite D givenVars rl form forallVars with
  | case1 bs e forallVars ih =>
    refine covered_cases (P := fun rule => ¬ rule.Mentions D b)
      (fun h => hfree (Rule.mentions_whole.1 h)) fun _ => ?_
    rw [allBindings, List.mem_append] at hb
    rw [allRelevant, List.mem_append, not_or] at hdrop
    obtain hb | hb := hb
    · exact not_mentions_dropped hscope hb hdrop.1 _
    · exact ih hscope.expression hb hdrop.2 (not_mem_freevars hscope.expression.inOrder hb)
  | case2 form forallVars hform => simp [allBindings] at hb

/-- What is dropped has values, and the kept variables keep theirs. -/
theorem exists_dropped_values {bs : List X} {e : Formula X α} (hscope : Scoped D (.forAll bs e))
    {ρ : X → V} (htyped : ∀ x, x ∈ Expr.freevars D (.forAll bs e) ∨ x ∈ relevantBindings D bs e →
      I.mem x ρ (ρ x)) :
    ∃ ρ' : X → V, (∀ x ∈ bs, x ∉ relevantBindings D bs e → I.mem x ρ' (ρ' x)) ∧
      ∀ x, ¬ (x ∈ bs ∧ x ∉ relevantBindings D bs e) → ρ' x = ρ x := by
  have horder := hscope.inOrder_bindings
  have hnodup := hscope.nodup
  rw [allBindings] at hnodup
  let dropped := bs.filter (· ∉ relevantBindings D bs e)
  have hmem : ∀ x, x ∈ dropped ↔ x ∈ bs ∧ x ∉ relevantBindings D bs e := by simp [dropped]
  let kept := fun x => x ∈ Expr.freevars D (.forAll bs e) ∨ x ∈ relevantBindings D bs e
  have houter : ∀ x, kept x → ∀ b ∈ dropped, b ∉ D.typeFreevars x := by
    intro x hx b hb
    obtain ⟨hbs, hdrop⟩ := (hmem b).1 hb
    obtain hx | hx := hx
    · exact hscope.outer x hx b (by simp [allBindings, hbs])
    · exact (not_mem_relevantBindings horder hbs hdrop).2.2 x hx
  have hdeps : ∀ b ∈ dropped, ∀ x ∈ D.typeFreevars b, x ∈ dropped ∨ kept x := by
    intro b hb x hx
    rw [hmem]
    by_cases hxbs : x ∈ bs
    · by_cases hrel : x ∈ relevantBindings D bs e
      · exact .inr (.inr hrel)
      · exact .inl ⟨hxbs, hrel⟩
    · exact .inr (.inl (mem_freevars_forAll.2
        (.inl (mem_freevarsList_of_type ((hmem b).1 hb).1 hx hxbs))))
  have hflag : ∀ b ∈ dropped, D.nonempty b = true := fun b hb =>
    (not_mem_relevantBindings horder ((hmem b).1 hb).1 ((hmem b).1 hb).2).1
  obtain ⟨ρ', hkeep, hvalues⟩ := exists_of_nonempty I.mem_congr
    (horder.sublist _ List.filter_sublist) ((List.nodup_append.1 hnodup).1.filter _)
    (fun b hb => I.nonempty b (hflag b hb)) kept ρ htyped houter hdeps
  exact ⟨ρ', fun x hx hdrop => hvalues x ((hmem x).2 ⟨hx, hdrop⟩),
    fun x hx => hkeep x (hx ∘ (hmem x).1)⟩

/-- The variables of a formula, and those of a list that it binds, have values of their types. -/
def WellTyped (form : Formula X α) (xs : List X) (ρ : X → V) : Prop :=
  ∀ x, x ∈ form.freevars D ∨ x ∈ allBindings form ∧ x ∈ xs → I.mem x ρ (ρ x)

theorem Rule.holds_congr {rule : Rule X α} {ρ ρ' : X → V}
    (h : ∀ x, rule.Mentions D x → ρ x = ρ' x) (hρ : rule.Holds I ρ) : rule.Holds I ρ' := by
  intro hhyp
  rw [← Expr.eval_congr I rule.lhs fun x hx => h x (.inl hx),
    ← Expr.eval_congr I rule.rhs fun x hx => h x (.inr (.inl hx))]
  refine hρ fun hyp hmem => ?_
  rw [Expr.eval_congr I hyp fun x hx => h x (.inr (.inr ⟨hyp, hmem, hx⟩))]
  exact hhyp hyp hmem

theorem splitRewrite_holds {form : Formula X α} {forallVars : List X} (hscope : Scoped D form)
    {ρ : X → V} (h : form.eval I ρ)
    (htyped : WellTyped I form
      (givenVars ++ (splitRewrite D givenVars rl form forallVars).lhs.freevars D) ρ) :
    (splitRewrite D givenVars rl form forallVars).Holds I ρ := by
  revert htyped
  fun_induction splitRewrite D givenVars rl form forallVars generalizing ρ with
  | case1 bs e forallVars ih =>
    refine covered_cases (P := fun rule =>
      WellTyped I (.forAll bs e) (givenVars ++ rule.lhs.freevars D) ρ → rule.Holds I ρ)
      (fun _ => Rule.holds_whole I h) fun hcover htyped => ?_
    have horder := hscope.inOrder_bindings
    have hnodup := hscope.nodup
    rw [allBindings] at hnodup
    have hrelevant : ∀ x ∈ relevantBindings D bs e, I.mem x ρ (ρ x) := fun x hx =>
      htyped x (.inr ⟨by simp [allBindings, (relevantBindings_sublist bs e).subset hx],
        hcover (List.mem_append_left _ hx)⟩)
    obtain ⟨ρ', hvalues, hkeep⟩ := exists_dropped_values I hscope fun x hx =>
      hx.elim (fun hx => htyped x (.inl hx)) (hrelevant x)
    have hmem : ∀ x, I.mem x ρ (ρ x) → ¬ (x ∈ bs ∧ x ∉ relevantBindings D bs e) →
        (∀ b ∈ bs, b ∉ relevantBindings D bs e → b ∉ D.typeFreevars x) → I.mem x ρ' (ρ' x) := by
      intro x hx hxkeep hdeps
      rw [hkeep x hxkeep]
      refine (I.mem_congr x ρ ρ' (fun y hy => (hkeep y ?_).symm) _).1 hx
      exact fun hdrop => hdeps y hdrop.1 hdrop.2 hy
    have hbs : ∀ b ∈ bs, I.mem b ρ' (ρ' b) := by
      intro b hb
      by_cases hrel : b ∈ relevantBindings D bs e
      · exact hmem b (hrelevant b hrel) (fun h => h.2 hrel) fun c hc hdrop =>
          (not_mem_relevantBindings horder hc hdrop).2.2 b hrel
      · exact hvalues b hb hrel
    have heval : e.eval I ρ' := by
      refine of_forallAll I.mem_congr horder (List.nodup_append.1 hnodup).1 h (fun x hx => ?_) hbs
      exact hkeep x fun h => hx h.1
    refine Rule.holds_congr I (fun x hx => hkeep x fun hdrop => ?_)
      (ih hscope.expression heval fun x hx => ?_)
    · exact not_mentions_dropped hscope hdrop.1 hdrop.2 _ hx
    · by_cases hxbs : x ∈ bs
      · exact hbs x hxbs
      · refine hmem x (htyped x ?_) (fun h => hxbs h.1) fun b hb hdrop hdep => ?_
        · rw [mem_freevars_forAll, allBindings, List.mem_append]
          exact hx.imp (fun hx => .inr ⟨hx, hxbs⟩) fun hx => ⟨.inr hx.1, hx.2⟩
        · obtain hx | hx := hx
          · exact hscope.outer x (mem_freevars_forAll.2 (.inr ⟨hx, hxbs⟩)) b
              (by simp [allBindings, hb]) hdep
          · exact (not_mem_relevantBindings horder hb hdrop).2.1
              (mem_freevars_of_type hx.1 hdep (hscope.not_mem_inner hb))
  | case2 form forallVars hform =>
    refine covered_cases (P := fun rule =>
      WellTyped I form (givenVars ++ rule.lhs.freevars D) ρ → rule.Holds I ρ)
      (fun _ => Rule.holds_whole I h) fun _ _ => splitRewriteStar_holds I _ _ h

theorem not_mem_relevant_type {form : Formula X α} (hscope : Scoped D form) {b y : X}
    (hb : b ∈ allBindings form) (hdrop : b ∉ allRelevant D form) (hy : y ∈ allRelevant D form) :
    b ∉ D.typeFreevars y := by
  induction form using allBindings.induct with
  | case1 bs e ih =>
    have horder := hscope.inOrder
    rw [allBindings] at horder hb
    rw [allRelevant, List.mem_append] at hdrop hy
    rw [not_or] at hdrop
    obtain ⟨hbs, -, hcross⟩ := (inOrder_append _).1 horder
    obtain hb | hb := List.mem_append.1 hb
    · obtain ⟨-, hfree, htypes⟩ := not_mem_relevantBindings hbs hb hdrop.1
      obtain hy | hy := hy
      · exact htypes y hy
      · have hbound := (allRelevant_sublist e).subset hy
        exact fun h => hfree (mem_freevars_of_type hbound h (hscope.not_mem_inner hb))
    · obtain hy | hy := hy
      · exact hcross y ((relevantBindings_sublist bs e).subset hy) b hb
      · exact ih hscope.expression hb hdrop.2 hy
  | case2 form hform => simp [allBindings] at hb

theorem mem_allRelevant_of_needs {form : Formula X α} (hscope : Scoped D form) {x : X}
    (h : (splitRewrite D givenVars rl form []).Needs D form x) (hx : x ∈ allBindings form) :
    x ∈ allRelevant D form := by
  induction h with
  | mentions x h =>
    by_contra hdrop
    exact splitRewrite_dropped hscope hx hdrop h
  | type x y _ hy h ih =>
    by_contra hdrop
    exact not_mem_relevant_type hscope hx hdrop (ih hy) h

theorem nonempty_of_dropped {form : Formula X α} (hscope : Scoped D form) {b : X}
    (hb : b ∈ allBindings form) (hdrop : b ∉ allRelevant D form) : D.nonempty b = true := by
  induction form using allBindings.induct with
  | case1 bs e ih =>
    rw [allBindings, List.mem_append] at hb
    rw [allRelevant, List.mem_append, not_or] at hdrop
    obtain hb | hb := hb
    · exact (not_mem_relevantBindings hscope.inOrder_bindings hb hdrop.1).1
    · exact ih hscope.expression hb hdrop.2
  | case2 form hform => simp [allBindings] at hb

/-- A rule that a lemma is split into is covered by its left-hand side, holds where the lemma does,
and needs none of the dropped bindings, which have values. -/
theorem splitRewrite_sound (form : Formula X α) (hscope : Scoped D form) (givenVars : List X)
    (rl : Bool) :
    let rule := splitRewrite D givenVars rl form []
    (∀ b ∈ allBindings form, b ∈ rule.rhs.freevars D ∨ (∃ hyp ∈ rule.hyp, b ∈ hyp.freevars D) →
      b ∈ givenVars ++ rule.lhs.freevars D) ∧
    (∀ (V : Type) (I : Interpretation D V) (ρ : X → V), form.eval I ρ →
      WellTyped I form (givenVars ++ rule.lhs.freevars D) ρ → rule.Holds I ρ) ∧
    ∀ b ∈ allBindings form, b ∉ allRelevant D form → ¬ rule.Needs D form b ∧
      ∀ (V : Type) (I : Interpretation D V) (ρ : X → V),
        (∀ x ∈ D.typeFreevars b, I.mem x ρ (ρ x)) → ∃ v, I.mem b ρ v := by
  refine ⟨fun b hb h => splitRewrite_covers hscope (.inl hb) (.inr h),
    fun V I ρ h htyped => splitRewrite_holds I hscope h htyped, fun b hb hdrop => ⟨?_, ?_⟩⟩
  · exact fun h => hdrop (mem_allRelevant_of_needs hscope h hb)
  · exact fun V I ρ h => I.nonempty b (nonempty_of_dropped hscope hb hdrop) ρ h

/-! ### A lemma on indices -/

/-- Applications to variables, where `i` is below `n` and the other variables are numbers -/
def indices : Declarations String (fun _ => String × List String) where
  freevars a := a.2
  typeFreevars x := if x = "i" then ["n"] else []
  nonempty x := x ≠ "i"
  not_self x := by split <;> simp_all

/-- Every application has the value of its last argument, and is true if that is positive. -/
def lastArgument : Interpretation indices ℕ where
  value {k} a ρ :=
    match k with
    | .formula => 0 < (a.2.map ρ).getLastD 0
    | .term => (a.2.map ρ).getLastD 0
  mem x ρ v := x = "i" → v < ρ "n"
  value_congr {k} a ρ ρ' h := by
    have hmap : a.2.map ρ = a.2.map ρ' := List.map_congr_left h
    cases k <;> simp only [hmap]
  mem_congr b ρ ρ' h v := by
    refine forall_congr' fun hb => ?_
    rw [h "n" (by simp [indices, hb])]
  nonempty b hb ρ _ := ⟨0, fun h => by simp [indices, h] at hb⟩

/-- `FORALL (n, k: nat): FORALL (i: below(n)): p(i) IMPLIES f(n, i) = g(i)` -/
def indexLemma : Formula String fun _ => String × List String :=
  .forAll ["n", "k"] (.forAll ["i"] (.implication (.other ("p", ["i"]))
    (.equation (k := .term) (.other ("f", ["n", "i"])) (.other ("g", ["i"])))))

theorem splitRewrite_indexLemma :
    (splitRewrite indices [] false indexLemma []).Holds lastArgument
      fun x => if x = "n" then 1 else 0 := by
  have hscope : Scoped indices indexLemma := by
    refine ⟨?_, ?_, ?_⟩
    · simp [indexLemma, allBindings, InOrder, indices]
    · simp [indexLemma, allBindings]
    · simp [indexLemma, allBindings, indices, Expr.freevars, freevarsList]
  refine (splitRewrite_sound indexLemma hscope [] false).2.1 ℕ lastArgument _ ?_ ?_
  · simp [indexLemma, Expr.eval, forallAll, lastArgument]
  · rintro x _ rfl
    exact Nat.zero_lt_one

end PVS.Prover.Rewrites
