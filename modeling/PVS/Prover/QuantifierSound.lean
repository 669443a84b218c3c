import PVS.Library.DependentTelescope
import PVS.Prover.QuantifierInstance

/-! What the subgoals of an instantiation are good for -/

namespace PVS.Quantifiers

open Library.Dependent

variable {ν κ τ D : Type}

theorem entries_cases {α : Type} {bs : Bindings ν κ τ} {terms : List (Option α)}
    {s : ν × TypeExpr ν κ τ} (h : (bound bs).length = terms.length) (hs : s ∈ entries bs) :
    s ∈ entries (idBoundvars bs terms) ∨ ∃ t, (s.1, s.2, t) ∈ subBoundvars bs terms := by
  induction bs using bindings_induction generalizing terms with
  | nil => simp at hs
  | cons y type rest ih =>
    match terms with
    | [] => simp at h
    | none :: terms =>
      simp only [bound_cons, List.length_cons, Nat.add_right_cancel_iff] at h
      simp only [idBoundvars, subBoundvars, entries_cons, List.mem_cons] at hs ⊢
      obtain hs | hs := hs
      · exact .inl (.inl hs)
      · exact (ih h hs).imp_left .inr
    | some t :: terms =>
      simp only [bound_cons, List.length_cons, Nat.add_right_cancel_iff] at h
      simp only [idBoundvars, subBoundvars, entries_cons, List.mem_cons] at hs ⊢
      obtain rfl | hs := hs
      · exact .inr ⟨t, .inl rfl⟩
      · exact (ih h hs).imp_right fun ⟨t, ht⟩ => ⟨t, .inr ht⟩

variable [DecidableEq ν]

/-- A sequent holds where one of its formulas is true. -/
def Holds (M : Model κ τ D) (ρ : ν → D) (sforms : List (Expr ν κ τ)) : Prop :=
  ∃ f ∈ sforms, M.IsTrue (eval M f ρ)

/-! ### An instance -/

/-- Values of the variables that are kept -/
def Choice (M : Model κ τ D) (σ : Subst ν κ τ) (ids : Bindings ν κ τ) (ρ ρ' : ν → D) : Prop :=
  (∀ x, x ∉ bound ids → ρ' x = ρ x) ∧ ∀ s ∈ entries ids, eval M s.2 (σ.assign M ρ') (ρ' s.1)

section Instance

variable {M : Model κ τ D} {σ : Subst ν κ τ} {bs ids : Bindings ν κ τ} {e : Expr ν κ τ}
  {ρ : ν → D}

theorem choice_iff (hσ : σ.Closed) (hids : ∀ x ∈ bound ids, σ x = none) (ρ' : ν → D) :
    Choice M σ ids ρ ρ' ↔ (∀ x, x ∉ bound (substit σ ids) → ρ' x = ρ x) ∧
      ∀ s ∈ entries (substit σ ids), eval M s.2 ρ' (ρ' s.1) := by
  rw [Choice, bound_substit, entries_substit hids, List.forall_mem_map]
  refine and_congr_right fun _ => forall₂_congr fun s _ => ?_
  rw [eval_substit M s.2 hσ]

theorem eval_newexpr_exist (hσ : σ.Closed) (hids : ∀ x ∈ bound ids, σ x = none)
    (hproper : Proper (substit σ ids)) :
    M.IsTrue (eval M (substit σ (newexpr .exist ids e)) ρ) ↔
      ∃ ρ', Choice M σ ids ρ ρ' ∧ M.IsTrue (eval M e (σ.assign M ρ')) := by
  have hwithout : σ.without (bound ids) = σ := Subst.without_of_disjoint hids
  rw [newexpr]
  split
  · rename_i hnil
    rw [eval_substit M e hσ]
    constructor
    · refine fun h => ⟨ρ, ⟨fun _ _ => rfl, fun s hs => ?_⟩, h⟩
      rw [← map_fst_entries, List.map_eq_nil_iff] at hnil
      simp [hnil] at hs
    · rintro ⟨ρ', ⟨hρ', -⟩, h⟩
      rwa [funext fun x => hρ' x (by simp [hnil])] at h
  · rw [substit, eval, M.isTrue_ofProp, eval_exist_iff hproper, hwithout]
    refine exists_congr fun ρ' => ?_
    rw [choice_iff hσ hids, and_assoc, eval_substit M e hσ]

theorem eval_newexpr_forAll (hσ : σ.Closed) (hids : ∀ x ∈ bound ids, σ x = none)
    (hproper : Proper (substit σ ids)) :
    M.IsTrue (eval M (substit σ (newexpr .forAll ids e)) ρ) ↔
      ∀ ρ', Choice M σ ids ρ ρ' → M.IsTrue (eval M e (σ.assign M ρ')) := by
  have hwithout : σ.without (bound ids) = σ := Subst.without_of_disjoint hids
  rw [newexpr]
  split
  · rename_i hnil
    rw [eval_substit M e hσ]
    constructor
    · rintro h ρ' ⟨hρ', -⟩
      rwa [funext fun x => hρ' x (by simp [hnil])]
    · refine fun h => h ρ ⟨fun _ _ => rfl, fun s hs => ?_⟩
      rw [← map_fst_entries, List.map_eq_nil_iff] at hnil
      simp [hnil] at hs
  · rw [substit, eval, M.isTrue_ofProp, eval_forAll_iff hproper, hwithout]
    refine forall_congr' fun ρ' => ?_
    rw [choice_iff hσ hids, and_imp, eval_substit M e hσ]

end Instance

section Substitution

variable {α : Type} {bs : Bindings ν κ τ} {terms : List (Option α)} {σ : Subst ν κ τ}

omit [DecidableEq ν] in
theorem bound_idBoundvars_sublist (bs : Bindings ν κ τ) (terms : List (Option α)) :
    (bound (idBoundvars bs terms)).Sublist (bound bs) := by
  induction bs using bindings_induction generalizing terms with
  | nil => simp
  | cons x type rest ih =>
    match terms with
    | [] => simp [idBoundvars]
    | none :: terms => simpa [idBoundvars] using ih terms
    | some t :: terms => simpa [idBoundvars] using (ih terms).trans (List.sublist_cons_self x _)

theorem freevars_idBoundvars {y : ν} (h : y ∈ freevars (idBoundvars bs terms)) :
    y ∈ freevars bs ∨ y ∈ (subBoundvars bs terms).map Prod.fst := by
  induction bs using bindings_induction generalizing terms with
  | nil => simp [freevars] at h
  | cons x type rest ih =>
    match terms with
    | [] => simp [idBoundvars, freevars] at h
    | none :: terms =>
      simp only [idBoundvars, freevars, List.mem_append, List.mem_filter, decide_eq_true_eq] at h
      simp only [freevars, subBoundvars, List.mem_append, List.mem_filter, decide_eq_true_eq]
      obtain h | ⟨h, hne⟩ := h
      · exact .inl (.inl h)
      · exact (ih h).imp_left fun h => .inr ⟨h, hne⟩
    | some t :: terms =>
      simp only [idBoundvars] at h
      simp only [freevars, subBoundvars, List.map_cons, List.mem_cons, List.mem_append,
        List.mem_filter, decide_eq_true_eq]
      by_cases hyx : y = x
      · exact .inr (.inl hyx)
      · obtain h | h := ih h
        · exact .inl (.inr ⟨h, hyx⟩)
        · exact .inr (.inr h)

/-- A substitution of the variables that are not kept -/
structure Replaces (σ : Subst ν κ τ) (bs : Bindings ν κ τ) (terms : List (Option α)) : Prop where
  closed : σ.Closed
  some_iff : ∀ x, (σ x).isSome ↔ x ∈ (subBoundvars bs terms).map Prod.fst

omit [DecidableEq ν] in
/-- The kept variables are not among those that are replaced. -/
theorem disjoint_of_nodup (hnodup : (bound bs).Nodup) {x : ν}
    (hids : x ∈ bound (idBoundvars bs terms)) : x ∉ (subBoundvars bs terms).map Prod.fst := by
  induction bs using bindings_induction generalizing terms with
  | nil => simp at hids
  | cons y type rest ih =>
    rw [bound_cons, List.nodup_cons] at hnodup
    match terms with
    | [] => simp [idBoundvars] at hids
    | none :: terms =>
      simp only [idBoundvars, bound_cons, List.mem_cons] at hids
      simp only [subBoundvars]
      obtain rfl | hids := hids
      · intro hmem
        obtain ⟨s, hs, hsx⟩ := List.mem_map.1 hmem
        exact hnodup.1 (hsx ▸ mem_bound_subBoundvars hs)
      · exact ih hnodup.2 hids
    | some t :: terms =>
      simp only [idBoundvars] at hids
      simp only [subBoundvars, List.map_cons, List.mem_cons, not_or]
      exact ⟨fun heq => hnodup.1 (heq ▸ mem_bound_idBoundvars hids), ih hnodup.2 hids⟩

theorem Replaces.none_of_kept (h : Replaces σ bs terms) (hnodup : (bound bs).Nodup) :
    ∀ x ∈ bound (idBoundvars bs terms), σ x = none := by
  intro x hx
  rw [← Option.not_isSome_iff_eq_none, h.some_iff]
  exact disjoint_of_nodup hnodup hx

theorem Replaces.proper (h : Replaces σ bs terms) (hproper : Proper bs) :
    Proper (substit σ (idBoundvars bs terms)) := by
  refine ⟨?_, fun y hy hbound => ?_⟩
  · rw [bound_substit]
    exact (bound_idBoundvars_sublist bs terms).nodup hproper.nodup
  · rw [bound_substit] at hbound
    obtain ⟨hfree, hnone⟩ := freevars_substit h.closed hy
    obtain hfree | hsub := freevars_idBoundvars hfree
    · exact hproper.free y hfree (mem_bound_idBoundvars hbound)
    · rw [← h.some_iff, hnone] at hsub
      exact nomatch hsub

/-- With the values of the replaced variables a choice is one for all bindings. -/
theorem Replaces.assign_choice {M : Model κ τ D} {ρ ρ' : ν → D} (h : Replaces σ bs terms)
    (hnodup : (bound bs).Nodup) (hlen : (bound bs).length = terms.length)
    (htyped : ∀ s ∈ subBoundvars bs terms, eval M s.2.1 (σ.assign M ρ') (σ.assign M ρ' s.1))
    (hchoice : Choice M σ (idBoundvars bs terms) ρ ρ') :
    (∀ x, x ∉ bound bs → σ.assign M ρ' x = ρ x) ∧
      ∀ s ∈ entries bs, eval M s.2 (σ.assign M ρ') (σ.assign M ρ' s.1) := by
  refine ⟨fun x hx => ?_, fun s hs => ?_⟩
  · have hnone : σ x = none := by
      rw [← Option.not_isSome_iff_eq_none, h.some_iff]
      intro hmem
      obtain ⟨s, hs, rfl⟩ := List.mem_map.1 hmem
      exact hx (mem_bound_subBoundvars hs)
    rw [Subst.assign_of_none hnone]
    exact hchoice.1 x fun hids => hx (mem_bound_idBoundvars hids)
  · obtain hids | ⟨t, hsub⟩ := entries_cases hlen hs
    · have hkept : s.1 ∈ bound (idBoundvars bs terms) := by
        rw [← map_fst_entries]
        exact List.mem_map_of_mem hids
      have hvalue := hchoice.2 s hids
      have hassign : σ.assign M ρ' s.1 = ρ' s.1 :=
        Subst.assign_of_none (h.none_of_kept hnodup s.1 hkept)
      rwa [← hassign] at hvalue
    · exact htyped _ hsub

theorem Replaces.exist_of_instance {M : Model κ τ D} {ρ : ν → D} {e : Expr ν κ τ}
    (h : Replaces σ bs terms) (hproper : Proper bs) (hlen : (bound bs).length = terms.length)
    (htyped : ∀ ρ', ∀ s ∈ subBoundvars bs terms,
      eval M s.2.1 (σ.assign M ρ') (σ.assign M ρ' s.1))
    (hinst : M.IsTrue (eval M (substit σ (newexpr .exist (idBoundvars bs terms) e)) ρ)) :
    M.IsTrue (eval M (.quant .exist bs e) ρ) := by
  rw [eval_newexpr_exist h.closed (h.none_of_kept hproper.nodup) (h.proper hproper)] at hinst
  obtain ⟨ρ', hchoice, he⟩ := hinst
  rw [eval, M.isTrue_ofProp, eval_exist_iff hproper]
  obtain ⟨houter, hentries⟩ := h.assign_choice hproper.nodup hlen (htyped ρ') hchoice
  exact ⟨_, houter, hentries, he⟩

theorem Replaces.instance_of_forAll {M : Model κ τ D} {ρ : ν → D} {e : Expr ν κ τ}
    (h : Replaces σ bs terms) (hproper : Proper bs) (hlen : (bound bs).length = terms.length)
    (htyped : ∀ ρ', ∀ s ∈ subBoundvars bs terms,
      eval M s.2.1 (σ.assign M ρ') (σ.assign M ρ' s.1))
    (hall : M.IsTrue (eval M (.quant .forAll bs e) ρ)) :
    M.IsTrue (eval M (substit σ (newexpr .forAll (idBoundvars bs terms) e)) ρ) := by
  rw [eval, M.isTrue_ofProp, eval_forAll_iff hproper] at hall
  rw [eval_newexpr_forAll h.closed (h.none_of_kept hproper.nodup) (h.proper hproper)]
  intro ρ' hchoice
  obtain ⟨houter, hentries⟩ := h.assign_choice hproper.nodup hlen (htyped ρ') hchoice
  exact hall _ houter hentries

end Substitution

/-! ### The terms -/

theorem lookup_of_nodup {alist : Alist ν κ τ} (h : (alist.map Prod.fst).Nodup) {x : ν}
    {t : Expr ν κ τ} (hmem : (x, t) ∈ alist) : alist.lookup x = some t := by
  induction alist with
  | nil => exact nomatch hmem
  | cons a alist ih =>
    obtain ⟨y, u⟩ := a
    rw [List.map_cons, List.nodup_cons] at h
    obtain heq | htail := List.mem_cons.1 hmem
    · obtain ⟨rfl, rfl⟩ := Prod.mk.inj heq
      simp
    · have hne : (x == y) = false := by
        rw [beq_eq_false_iff_ne]
        rintro rfl
        exact h.1 (List.mem_map.2 ⟨_, htail, rfl⟩)
      rw [List.lookup_cons, hne]
      exact ih h.2 htail

theorem toSubst_isSome {alist : Alist ν κ τ} {x : ν} :
    (alist.toSubst x).isSome ↔ x ∈ alist.map Prod.fst := by
  rw [Alist.toSubst, List.lookup_isSome_iff, List.mem_map]
  exact exists_congr fun a => and_congr_right fun _ => by rw [beq_iff_eq, eq_comm]

variable {C : Checker ν κ τ}

/-- Every term is checked against the type with the terms before it. -/
theorem makeQuantAlist_some {sub : List (ν × TypeExpr ν κ τ × Expr ν κ τ)} {alist qalist : Alist ν κ τ}
    {tccforms tccs : List (Expr ν κ τ)}
    (h : makeQuantAlist C sub alist tccforms = some (qalist, tccs)) :
    ∃ new : Alist ν κ τ, qalist = alist.reverse ++ new ∧ new.map Prod.fst = sub.map Prod.fst ∧
      (∀ tccf ∈ tccforms, tccf ∈ tccs) ∧
      ∀ before s after, sub = before ++ s :: after → ∃ earlier newterm later tccs',
        new = earlier ++ (s.1, newterm) :: later ∧ earlier.map Prod.fst = before.map Prod.fst ∧
        C.typecheck s.2.2 (substit (Alist.toSubst (earlier.reverse ++ alist)) s.2.1) =
          some (newterm, tccs') ∧ ∀ tccf ∈ tccs', tccf ∈ tccs := by
  induction sub generalizing alist tccforms with
  | nil =>
    rw [makeQuantAlist, Option.some.injEq, Prod.mk.injEq] at h
    exact ⟨[], by simp [h.1], rfl, fun _ hmem => h.2 ▸ hmem, by simp⟩
  | cons s sub ih =>
    obtain ⟨x, type, term⟩ := s
    rw [makeQuantAlist] at h
    split at h
    · exact nomatch h
    · rename_i newterm tccs' hcheck
      obtain ⟨new, rfl, hkeys, hmem, hnew⟩ := ih h
      refine ⟨(x, newterm) :: new, by simp, by simp [hkeys],
        fun tccf htccf => hmem tccf (List.mem_append_left _ htccf), fun before s after heq => ?_⟩
      cases before with
      | nil =>
        obtain ⟨rfl, rfl⟩ := List.cons.inj heq
        exact ⟨[], newterm, new, tccs', rfl, rfl, hcheck,
          fun tccf htccf => hmem tccf (List.mem_append_right _ htccf)⟩
      | cons s' before =>
        obtain ⟨rfl, rfl⟩ := List.cons.inj heq
        obtain ⟨earlier, newterm', later, tccs'', rfl, hearlier, hcheck', hmem'⟩ :=
          hnew before s after rfl
        refine ⟨(x, newterm) :: earlier, newterm', later, tccs'', rfl, by simp [hearlier], ?_, hmem'⟩
        simpa using hcheck'

/-- What the type checker promises of a term: it is of the type where the TCCs hold. -/
def Checker.Sound (C : Checker ν κ τ) (M : Model κ τ D) (ρ : ν → D) : Prop :=
  ∀ term type newterm tccs, C.typecheck term type = some (newterm, tccs) →
    (∀ tccf ∈ tccs, M.IsTrue (eval M tccf ρ)) → eval M type ρ (eval M newterm ρ)

section Alist

variable {M : Model κ τ D} {ρ : ν → D} {bs : Bindings ν κ τ}
  {terms : List (Option (Expr ν κ τ))} {qalist : Alist ν κ τ} {tccs : List (Expr ν κ τ)}

theorem replaces_of_makeQuantAlist
    (h : makeQuantAlist C (subBoundvars bs terms) [] [] = some (qalist, tccs))
    (hclosed : qalist.flatMap (fun entry => freevars entry.2) = []) :
    Replaces qalist.toSubst bs terms := by
  obtain ⟨new, rfl, hkeys, -⟩ := makeQuantAlist_some h
  refine ⟨fun x t ht => ?_, fun x => ?_⟩
  · exact List.flatMap_eq_nil_iff.1 hclosed _ (mem_of_lookup ht)
  · rw [toSubst_isSome, hkeys]

omit [DecidableEq ν] in
theorem nodup_subBoundvars {α : Type} {bs : Bindings ν κ τ} {terms : List (Option α)}
    (hnodup : (bound bs).Nodup) : ((subBoundvars bs terms).map Prod.fst).Nodup := by
  induction bs using bindings_induction generalizing terms with
  | nil => simp
  | cons x type rest ih =>
    rw [bound_cons, List.nodup_cons] at hnodup
    match terms with
    | [] => simp [subBoundvars]
    | none :: terms => simpa [subBoundvars] using ih hnodup.2
    | some t :: terms =>
      rw [subBoundvars, List.map_cons, List.nodup_cons]
      refine ⟨fun hmem => ?_, ih hnodup.2⟩
      obtain ⟨s, hs, hsx : s.1 = x⟩ := List.mem_map.1 hmem
      exact hnodup.1 (hsx ▸ mem_bound_subBoundvars hs)

/-- The values of the terms are of the types of the variables. -/
theorem typed_of_makeQuantAlist (hsound : C.Sound M ρ)
    (h : makeQuantAlist C (subBoundvars bs terms) [] [] = some (qalist, tccs))
    (hclosed : qalist.flatMap (fun entry => freevars entry.2) = [])
    (hoverlap : overlap (subBoundvars bs terms) (idBoundvars bs terms) = [])
    (hnodup : (bound bs).Nodup) (hfree : freevars bs = [])
    (htccs : ∀ tccf ∈ tccs, M.IsTrue (eval M tccf ρ)) (ρ' : ν → D) :
    ∀ s ∈ subBoundvars bs terms,
      eval M s.2.1 (qalist.toSubst.assign M ρ') (qalist.toSubst.assign M ρ' s.1) := by
  intro s hs
  have hreplaces := replaces_of_makeQuantAlist h hclosed
  obtain ⟨new, rfl, hkeys, -, hnew⟩ := makeQuantAlist_some h
  obtain ⟨before, after, hsub⟩ := List.append_of_mem hs
  obtain ⟨earlier, newterm, later, tccs', rfl, hearlier, hcheck, hmem⟩ := hnew before s after hsub
  have hnodupnew : ((earlier ++ (s.1, newterm) :: later).map Prod.fst).Nodup := by
    rw [hkeys]
    exact nodup_subBoundvars hnodup
  rw [List.append_nil] at hcheck
  -- the type is closed once the earlier variables are replaced
  have hlookup : ∀ y ∈ freevars s.2.1, y ∈ earlier.map Prod.fst := by
    intro y hy
    obtain hbs | hbefore | hids := freevars_subBoundvars hsub hy
    · rw [hfree] at hbs
      exact nomatch hbs
    · rwa [hearlier]
    · exact absurd hids (overlap_eq_nil.1 hoverlap s hs y hy)
  have hsame : substit (Alist.toSubst earlier.reverse) s.2.1 =
      substit (Alist.toSubst (earlier ++ (s.1, newterm) :: later)) s.2.1 := by
    refine substit_congr _ fun y hy => ?_
    obtain ⟨a, ha, rfl⟩ := List.mem_map.1 (hlookup y hy)
    have hnodupearlier : (earlier.map Prod.fst).Nodup := by
      rw [List.map_append] at hnodupnew
      exact (List.nodup_append.1 hnodupnew).1
    rw [Alist.toSubst, Alist.toSubst,
      lookup_of_nodup (t := a.2) (by rwa [List.map_reverse, List.nodup_reverse]) (by simpa using ha),
      lookup_of_nodup (t := a.2) hnodupnew (by simp [ha])]
  have hvalue := hsound _ _ _ _ hcheck fun tccf htccf => htccs tccf (hmem tccf htccf)
  have htypeclosed : freevars (substit (Alist.toSubst earlier.reverse) s.2.1) = [] := by
    rw [List.eq_nil_iff_forall_not_mem]
    intro y hy
    rw [hsame] at hy
    obtain ⟨hfree, hnone⟩ := freevars_substit hreplaces.closed hy
    have hsome := toSubst_isSome.2 (List.map_append ▸ List.mem_append_left _ (hlookup y hfree) :
      y ∈ (earlier ++ (s.1, newterm) :: later).map Prod.fst)
    rw [hnone] at hsome
    exact nomatch hsome
  have htermclosed : freevars newterm = [] :=
    List.flatMap_eq_nil_iff.1 hclosed (s.1, newterm) (by simp)
  have hassign : (Alist.toSubst (earlier ++ (s.1, newterm) :: later)).assign M ρ' s.1 =
      eval M newterm ρ' :=
    Subst.assign_of_some (lookup_of_nodup hnodupnew (by simp))
  rw [hassign, ← eval_substit M s.2.1 hreplaces.closed, ← hsame,
    eval_of_freevars_eq_nil M htermclosed ρ' ρ,
    evalType_of_freevars_eq_nil M htypeclosed ρ' ρ]
  exact hvalue

end Alist

/-! ### The rule -/

section Signed

variable {M : Model κ τ D} {ρ : ν → D}

theorem isTrue_negate (f : Expr ν κ τ) :
    M.IsTrue (eval M (negate f) ρ) ↔ ¬ M.IsTrue (eval M f ρ) := by
  cases f with
  | negation argument => simp [negate, eval, M.isTrue_ofProp]
  | _ => simp [negate, eval, M.isTrue_ofProp]

theorem isTrue_signed (sign : Bool) (f : Expr ν κ τ) :
    M.IsTrue (eval M (signed sign f) ρ) ↔ (M.IsTrue (eval M f ρ) ↔ sign = true) := by
  cases sign with
  | true => simp [signed]
  | false => simp [signed, isTrue_negate]

omit [DecidableEq ν] in
theorem eq_signed_body {sform : Expr ν κ τ} {q : Quantifier} {bs : Bindings ν κ τ} {e : Expr ν κ τ}
    (h : (body sform).2 = .quant q bs e) :
    sform = signed (body sform).1 (.quant q bs e) ∧ isNegation sform = !(body sform).1 := by
  cases sform with
  | negation argument =>
    simp only [Quantifiers.body] at h ⊢
    subst h
    simp [signed, negate, isNegation]
  | _ =>
    simp only [Quantifiers.body] at h ⊢
    simp [signed, h, isNegation]

omit [DecidableEq ν] in
theorem instantiable_some {sign : Bool} {b : Expr ν κ τ} {bs : Bindings ν κ τ}
    (h : instantiable sign b = some bs) : ∃ e, b = .quant (levelQuantifier sign) bs e := by
  cases b with
  | quant q bs' e =>
    cases q <;> cases sign <;> simp [instantiable] at h <;> exact ⟨e, by rw [h]; rfl⟩
  | _ => simp [instantiable] at h

end Signed

/-- What is promised of the sequents of a proof: no formula has free variables, and every variable
is bound once. -/
structure Formed (sforms : List (Expr ν κ τ)) : Prop where
  closed : ∀ f ∈ sforms, freevars f = []
  nodup : ∀ f ∈ sforms, ∀ q bs e, (body f).2 = .quant q bs e → (bound bs).Nodup

theorem Formed.proper {sforms : List (Expr ν κ τ)} (h : Formed sforms) {sign : Bool} {q : Quantifier}
    {bs : Bindings ν κ τ} {e : Expr ν κ τ} (hmem : signed sign (.quant q bs e) ∈ sforms) :
    freevars bs = [] ∧ Proper bs := by
  have hclosed := h.closed _ hmem
  have hfree : freevars bs = [] := by
    have hquant : freevars (.quant q bs e) = [] := by
      cases sign <;> simpa [signed, negate, freevars] using hclosed
    rw [freevars, List.append_eq_nil_iff] at hquant
    exact hquant.1
  exact ⟨hfree, h.nodup _ hmem q bs e (by simp), by simp [hfree]⟩

/-- What a TCC is simplified to implies it where the sequent does not hold. -/
def Checker.SimplifierSound (C : Checker ν κ τ) (M : Model κ τ D) (ρ : ν → D)
    (sforms : List (Expr ν κ τ)) : Prop :=
  ∀ tccs, ¬ Holds M ρ sforms → (∀ tccf ∈ C.assertTccforms sforms tccs, M.IsTrue (eval M tccf ρ)) →
    ∀ tccf ∈ tccs, M.IsTrue (eval M tccf ρ)

section Rule

variable {M : Model κ τ D} {ρ : ν → D} {sign : Bool} {bs : Bindings ν κ τ} {e qbody : Expr ν κ τ}
  {terms : List (Option (Expr ν κ τ))} {tccs : List (Expr ν κ τ)}

/-- An expression is left as it is, or replaced by an instance. -/
theorem quantifierStep_cases {q : Quantifier}
    (h : quantifierStep C (.quant q bs e) terms = (qbody, tccs)) :
    qbody = .quant q bs e ∨
      ∃ qalist, makeQuantAlist C (subBoundvars bs terms) [] [] = some (qalist, tccs) ∧
        overlap (subBoundvars bs terms) (idBoundvars bs terms) = [] ∧
        qalist.flatMap (fun entry => freevars entry.2) = [] ∧
        qbody = substit qalist.toSubst (newexpr q (idBoundvars bs terms) e) := by
  rw [quantifierStep] at h
  split at h
  · exact .inl (Prod.mk.inj h).1.symm
  · rename_i hoverlap
    split at h
    · exact .inl (Prod.mk.inj h).1.symm
    · rename_i qalist tccforms hqalist
      split at h
      · exact .inl (Prod.mk.inj h).1.symm
      · rename_i hclosed
        split at h
        · exact .inl (Prod.mk.inj h).1.symm
        · obtain ⟨rfl, rfl⟩ := Prod.mk.inj h
          exact .inr ⟨qalist, hqalist, not_not.1 hoverlap, not_not.1 hclosed, rfl⟩

theorem isTrue_of_quantifierStep (hsound : C.Sound M ρ)
    (hstep : quantifierStep C (.quant (levelQuantifier sign) bs e) terms = (qbody, tccs))
    (hlen : (bound bs).length = terms.length) (hfree : freevars bs = []) (hproper : Proper bs)
    (htccs : ∀ tccf ∈ tccs, M.IsTrue (eval M tccf ρ))
    (h : M.IsTrue (eval M (signed sign qbody) ρ)) :
    M.IsTrue (eval M (signed sign (.quant (levelQuantifier sign) bs e)) ρ) := by
  obtain rfl | ⟨qalist, hqalist, hoverlap, hclosed, rfl⟩ := quantifierStep_cases hstep
  · exact h
  · have hreplaces := replaces_of_makeQuantAlist hqalist hclosed
    have htyped := typed_of_makeQuantAlist hsound hqalist hclosed hoverlap hproper.nodup hfree htccs
    rw [isTrue_signed] at h ⊢
    cases sign with
    | true => exact iff_of_true (hreplaces.exist_of_instance hproper hlen htyped (h.2 rfl)) rfl
    | false =>
      simp only [Bool.false_eq_true, iff_false] at h ⊢
      exact fun hall => h (hreplaces.instance_of_forAll hproper hlen htyped hall)

omit [DecidableEq ν] in
theorem matchesLength_some {α : Type} {o : Option (Bindings ν κ τ)} {terms : List (Option α)}
    (h : matchesLength o terms = true) :
    ∃ bs, o = some bs ∧ (bound bs).length = terms.length := by
  cases o with
  | none => simp [matchesLength] at h
  | some bs => exact ⟨bs, rfl, by simpa [matchesLength] using h⟩

/-- The formulas after the step: those of the sequent, and the new one -/
theorem quantStepSform_eq
    (hstep : quantifierStep C (.quant (levelQuantifier sign) bs e) terms = (qbody, tccs))
    (hlen : (bound bs).length = terms.length) (copy : Bool) :
    quantStepSform C terms copy (signed sign (.quant (levelQuantifier sign) bs e)) [] =
      if C.exequal qbody (.quant (levelQuantifier sign) bs e) then
        (false, [signed sign (.quant (levelQuantifier sign) bs e)], tccs)
      else (true, if copy then [signed sign (.quant (levelQuantifier sign) bs e), signed sign qbody]
        else [signed sign qbody], tccs) := by
  have hmatches : matchesLength (some bs) terms = true := by simp [matchesLength, hlen]
  simp only [quantStepSform, body_signed, instantiable_levelQuantifier, hmatches, if_true, hstep,
    List.nil_append]

/-- What the step is on: a formula with this number, whose bindings match the terms -/
theorem quantStep_some {sforms : List (Expr ν κ τ)} {fnum : Int}
    {terms : List (Option (Expr ν κ τ))} {copy : Bool} {subgoal : List (Expr ν κ τ)}
    {tccgoals : List (List (Expr ν κ τ))}
    (h : quantStep C sforms fnum terms copy = some (subgoal, tccgoals)) :
    ∃ before sign bs e after qbody tccs,
      sforms = before ++ signed sign (.quant (levelQuantifier sign) bs e) :: after ∧
      (bound bs).length = terms.length ∧
      quantifierStep C (.quant (levelQuantifier sign) bs e) terms = (qbody, tccs) ∧
      C.exequal qbody (.quant (levelQuantifier sign) bs e) = false ∧
      (∀ f ∈ subgoal, f ∈ sforms ∨ f = signed sign qbody) ∧
      tccgoals = (C.assertTccforms sforms tccs).map (· :: (before ++ after)) := by
  rw [quantStep] at h
  split at h
  · exact nomatch h
  · rename_i hfind
    rw [Bool.or_eq_true, not_or, Bool.not_eq_true, Bool.not_eq_true, Bool.not_eq_false'] at hfind
    obtain ⟨before, sform, after, sign, rfl, hsign, rfl, hpred⟩ := findSform_split hfind.2
    obtain ⟨bs, hbs, hlen⟩ := matchesLength_some hpred
    obtain ⟨e, hbody⟩ := instantiable_some hbs
    obtain ⟨hsform, hneg⟩ := eq_signed_body hbody
    obtain rfl : (body sform).1 = sign := by
      rw [hneg] at hsign
      simpa using hsign
    generalize (body sform).1 = sign at *
    subst hsform
    rcases hstep : quantifierStep C (.quant (levelQuantifier sign) bs e) terms with ⟨qbody, tccs⟩
    rw [sformReduce_from _ _ _ hsign (by decide) (by decide), deleteSeq_from _ _ hsign (by decide)
      (by decide), quantStepSform_eq hstep hlen] at h
    cases hexequal : C.exequal qbody (.quant (levelQuantifier sign) bs e) with
    | true => simp [hexequal] at h
    | false =>
      simp only [hexequal, Bool.false_eq_true, if_false, Bool.not_true, Bool.false_or] at h
      split at h
      · exact nomatch h
      · obtain ⟨rfl, rfl⟩ := Prod.mk.inj (Option.some.inj h)
        refine ⟨before, sign, bs, e, after, qbody, tccs, rfl, hlen, hstep, hexequal, ?_, rfl⟩
        intro f hf
        simp only [List.mem_append, List.mem_filter, List.mem_cons] at hf ⊢
        obtain ⟨hf, -⟩ | ⟨hf, -⟩ | ⟨hf, -⟩ := hf
        · exact .inl (.inl hf)
        · cases copy with
          | true =>
            obtain rfl | rfl : f = signed sign (.quant (levelQuantifier sign) bs e) ∨
                f = signed sign qbody := by simpa using hf
            · exact .inl (.inr (.inl rfl))
            · exact .inr rfl
          | false => exact .inr (by simpa using hf)
        · exact .inl (.inr (.inr hf))

/-- The sequent holds where the subgoal and the TCC subgoals do. -/
theorem quantStep_sound {M : Model κ τ D} {ρ : ν → D} {sforms : List (Expr ν κ τ)}
    (hsound : C.Sound M ρ) (hassert : C.SimplifierSound M ρ sforms) (hformed : Formed sforms)
    {fnum : Int} {terms : List (Option (Expr ν κ τ))} {copy : Bool} {subgoal : List (Expr ν κ τ)}
    {tccgoals : List (List (Expr ν κ τ))}
    (h : quantStep C sforms fnum terms copy = some (subgoal, tccgoals))
    (hsubgoal : Holds M ρ subgoal) (htccgoals : ∀ goal ∈ tccgoals, Holds M ρ goal) :
    Holds M ρ sforms := by
  by_contra hnot
  obtain ⟨before, sign, bs, e, after, qbody, tccs, rfl, hlen, hstep, -, hmem, rfl⟩ :=
    quantStep_some h
  obtain ⟨hfree, hproper⟩ := hformed.proper (List.mem_append_right _ (List.mem_cons_self ..))
  rw [List.forall_mem_map] at htccgoals
  have htccs := hassert tccs hnot fun tccf htccf => by
    obtain ⟨f, hf, htrue⟩ := htccgoals tccf htccf
    obtain rfl | hf := List.mem_cons.1 hf
    · exact htrue
    · refine absurd ⟨f, ?_, htrue⟩ hnot
      simp only [List.mem_append, List.mem_cons] at hf ⊢
      exact hf.imp_right .inr
  obtain ⟨f, hf, htrue⟩ := hsubgoal
  obtain hf | rfl := hmem f hf
  · exact hnot ⟨f, hf, htrue⟩
  · exact hnot ⟨_, List.mem_append_right _ (List.mem_cons_self ..),
      isTrue_of_quantifierStep hsound hstep hlen hfree hproper htccs htrue⟩

end Rule

end PVS.Quantifiers
