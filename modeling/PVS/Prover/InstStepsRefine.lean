import Mathlib
import PVS.Prover.InstSteps

/-! The steps give the instance of the formula -/

namespace PVS.Quantifiers

open Library.Dependent

variable {ν κ τ : Type}

section Through

variable {α : Type} {p : α → Bool}

theorem through_of_dropLast {l : List α} (h : ∀ a ∈ l.dropLast, p a = false) : through p l = l := by
  induction l with
  | nil => rfl
  | cons a l ih =>
    cases l with
    | nil => simp [through]
    | cons b l =>
      rw [List.dropLast_cons_cons, List.forall_mem_cons] at h
      rw [through, if_neg (by simp [h.1]), ih h.2]

theorem through_coalesced {l : List α} {coalesced : Bool}
    (h : coalesced = true ∨ ∀ a ∈ l.dropLast, p a = false) :
    through (fun a => coalesced && p a) l = through p l := by
  cases coalesced with
  | true => rfl
  | false =>
    have hp := h.resolve_left Bool.false_ne_true
    rw [through_of_dropLast hp]
    exact through_of_dropLast fun _ _ => rfl

end Through

theorem any_isNone {α : Type} {bs : Bindings ν κ τ} {terms : List (Option α)}
    (h : (bound bs).length = terms.length) :
    terms.any Option.isNone = true ↔ bound (idBoundvars bs terms) ≠ [] := by
  induction bs using bindings_induction generalizing terms with
  | nil =>
    have hterms : terms = [] := by simpa using h.symm
    simp [hterms]
  | cons y type rest ih =>
    match terms with
    | [] => simp at h
    | none :: terms => simp [idBoundvars]
    | some t :: terms =>
      simp only [bound_cons, List.length_cons, Nat.add_right_cancel_iff] at h
      simpa [idBoundvars] using ih h

variable [DecidableEq ν]

section Restrict

variable {subst : Alist ν κ τ}

theorem restrict_or (xs ys : List ν) :
    (restrict subst xs).or (restrict subst ys) = restrict subst (xs ++ ys) := by
  funext x
  by_cases hx : x ∈ xs <;> by_cases hy : x ∈ ys <;> simp [Subst.or, restrict, hx, hy]

theorem restrict_nil : restrict subst [] = fun _ => none := by
  funext x
  simp [restrict]

theorem restrict_closed (h : ∀ entry ∈ subst, freevars entry.2 = []) (xs : List ν) :
    (restrict subst xs).Closed := by
  intro x t ht
  rw [restrict] at ht
  split at ht
  · obtain ⟨l, l', rfl, -⟩ := List.lookup_eq_some_iff.1 ht
    exact h (x, t) (by simp)
  · exact nomatch ht

theorem toSubst_eq_restrict (subst alist : Alist ν κ τ)
    (h : ∀ entry ∈ alist, subst.lookup entry.1 = some entry.2) :
    alist.toSubst = restrict subst (alist.map Prod.fst) := by
  funext x
  induction alist with
  | nil => simp [Alist.toSubst, restrict]
  | cons entry alist ih =>
    obtain ⟨y, t⟩ := entry
    rw [List.forall_mem_cons] at h
    have hrest := ih h.2
    by_cases hx : x = y
    · simp [Alist.toSubst, restrict, hx, h.1]
    · have hne : (x == y) = false := by simpa using hx
      rw [Alist.toSubst, List.lookup_cons, hne]
      simp only [restrict, List.map_cons, List.mem_cons, hx, false_or] at hrest ⊢
      exact hrest

theorem lookup_of_mem {bs : Bindings ν κ τ} {s : ν × TypeExpr ν κ τ × Expr ν κ τ}
    (h : s ∈ subBoundvars bs (levelTerms subst bs)) : subst.lookup s.1 = some s.2.2 := by
  induction bs using bindings_induction with
  | nil => simp at h
  | cons y type rest ih =>
    rw [levelTerms, bound_cons, List.map_cons] at h
    cases hy : subst.lookup y with
    | none =>
      rw [hy, subBoundvars] at h
      exact ih h
    | some t =>
      rw [hy, subBoundvars, List.mem_cons] at h
      obtain rfl | h := h
      · exact hy
      · exact ih h

end Restrict

variable {C : Checker ν κ τ}

def entry (s : ν × TypeExpr ν κ τ × Expr ν κ τ) : ν × Expr ν κ τ := (s.1, s.2.2)

theorem makeQuantAlist_eq {sub : List (ν × TypeExpr ν κ τ × Expr ν κ τ)} (alist : Alist ν κ τ)
    (tccforms : List (Expr ν κ τ)) {P : Expr ν κ τ → Prop}
    (h : ∀ before s after, sub = before ++ s :: after → ∃ tccs,
      C.typecheck s.2.2 (substit (Alist.toSubst ((before.map entry).reverse ++ alist)) s.2.1) =
        some (s.2.2, tccs) ∧ ∀ tccf ∈ tccs, P tccf) :
    ∃ tccs, makeQuantAlist C sub alist tccforms =
      some (alist.reverse ++ sub.map entry, tccforms ++ tccs) ∧ ∀ tccf ∈ tccs, P tccf := by
  induction sub generalizing alist tccforms with
  | nil => exact ⟨[], by simp [makeQuantAlist], nofun⟩
  | cons s sub ih =>
    obtain ⟨tccs, hcheck, htccs⟩ := h [] s sub rfl
    obtain ⟨tccs', heq, htccs'⟩ := ih (entry s :: alist) (tccforms ++ tccs)
      fun before s' after hsub => by
        have hnext := h (s :: before) s' after (by rw [hsub, List.cons_append])
        rwa [List.map_cons, List.reverse_cons, List.append_assoc, List.singleton_append] at hnext
    obtain ⟨x, type, term⟩ := s
    refine ⟨tccs ++ tccs', ?_, fun tccf hmem => (List.mem_append.1 hmem).elim (htccs tccf)
      (htccs' tccf)⟩
    rw [makeQuantAlist]
    simp only [List.map_nil, List.reverse_nil, List.nil_append] at hcheck
    simp only [hcheck]
    simpa [entry] using heq

section Level

variable {subst : Alist ν κ τ} {xs : List ν} {q : Quantifier} {bs : Bindings ν κ τ}

theorem levelTerms_length (subst : Alist ν κ τ) (bs : Bindings ν κ τ) :
    (bound bs).length = (levelTerms subst bs).length := by
  simp [levelTerms]

/-- The type that a term is checked against is that of its variable with the terms of the earlier
ones. -/
theorem typecheck_earlier (hterms : ∀ entry ∈ subst, freevars entry.2 = [])
    (hfree : ∀ x ∈ freevars bs, x ∈ xs)
    (hoverlap : overlap (subBoundvars bs (levelTerms subst bs))
      (idBoundvars bs (levelTerms subst bs)) = []) {P : Expr ν κ τ → Prop}
    (haccepted : ∀ s ∈ subBoundvars bs (levelTerms subst bs), ∃ tccs,
      C.typecheck s.2.2 (substit subst.toSubst s.2.1) = some (s.2.2, tccs) ∧
        ∀ tccf ∈ tccs, P tccf)
    (before : List (ν × TypeExpr ν κ τ × Expr ν κ τ)) (s : ν × TypeExpr ν κ τ × Expr ν κ τ)
    (after : List (ν × TypeExpr ν κ τ × Expr ν κ τ))
    (h : (subBoundvars bs (levelTerms subst bs)).map (substitType (restrict subst xs)) =
      before ++ s :: after) :
    ∃ tccs, C.typecheck s.2.2
        (substit (Alist.toSubst ((before.map entry).reverse ++ [])) s.2.1) =
      some (s.2.2, tccs) ∧ ∀ tccf ∈ tccs, P tccf := by
  obtain ⟨before, rest, hsub, rfl, hrest⟩ := List.map_eq_append_iff.1 h
  obtain ⟨s, after, rfl, rfl, rfl⟩ := List.map_eq_cons_iff.1 hrest
  have hmem : ∀ s' ∈ before ++ s :: after, s' ∈ subBoundvars bs (levelTerms subst bs) :=
    fun s' hs' => hsub ▸ hs'
  obtain ⟨tccs, hcheck, htccs⟩ := haccepted s (hmem s (by simp))
  have hsubst := toSubst_eq_restrict subst
    (((before.map (substitType (restrict subst xs))).map entry).reverse) (by
      simp only [List.mem_reverse, List.mem_map, forall_exists_index, and_imp]
      rintro _ _ s' hs' rfl rfl
      exact (lookup_of_mem (hmem s' (by simp [hs'])) : subst.lookup s'.1 = some s'.2.2))
  refine ⟨tccs, ?_, htccs⟩
  rw [List.append_nil, hsubst, substitType, substit_substit _ (restrict_closed hterms xs),
    restrict_or, ← hcheck]
  congr 1
  refine substit_congr _ fun y hy => ?_
  obtain hbs | hbefore | hids := freevars_subBoundvars hsub hy
  · simp [restrict, hfree y hbs, Alist.toSubst]
  · rw [restrict, if_pos, Alist.toSubst]
    refine List.mem_append_right _ ?_
    obtain ⟨s', hs', rfl⟩ := List.mem_map.1 hbefore
    simp only [List.map_reverse, List.mem_reverse, List.map_map, List.mem_map]
    exact ⟨s', hs', rfl⟩
  · exact absurd hids (overlap_eq_nil.1 hoverlap s (hmem s (by simp)) y hy)

/-- One step on a formula in which the earlier variables are replaced already -/
theorem quantifierStep_level (hterms : ∀ entry ∈ subst, freevars entry.2 = [])
    (hfree : ∀ x ∈ freevars bs, x ∈ xs) (hbound : ∀ x ∈ bound bs, x ∉ xs)
    (hoverlap : overlap (subBoundvars bs (levelTerms subst bs))
      (idBoundvars bs (levelTerms subst bs)) = []) {P : Expr ν κ τ → Prop}
    (haccepted : ∀ s ∈ subBoundvars bs (levelTerms subst bs), ∃ tccs,
      C.typecheck s.2.2 (substit subst.toSubst s.2.1) = some (s.2.2, tccs) ∧
        ∀ tccf ∈ tccs, P tccf) (e : Expr ν κ τ) :
    ∃ tccs, quantifierStep C (substit (restrict subst xs) (.quant q bs e)) (levelTerms subst bs) =
        (substit (restrict subst (xs ++ (subBoundvars bs (levelTerms subst bs)).map Prod.fst))
          (newexpr q (idBoundvars bs (levelTerms subst bs)) e), tccs) ∧ ∀ tccf ∈ tccs, P tccf := by
  have hclosed := restrict_closed hterms xs
  have hnone : ∀ x ∈ bound bs, restrict subst xs x = none := fun x hx => by
    simp [restrict, hbound x hx]
  have hids : ∀ x ∈ bound (idBoundvars bs (levelTerms subst bs)), restrict subst xs x = none :=
    fun x hx => hnone x (mem_bound_idBoundvars hx)
  have hentries : ((subBoundvars bs (levelTerms subst bs)).map (substitType (restrict subst xs))).map
      entry = (subBoundvars bs (levelTerms subst bs)).map entry := by
    rw [List.map_map]
    rfl
  obtain ⟨tccs, hqalist, htccs⟩ := makeQuantAlist_eq [] []
    (typecheck_earlier hterms hfree hoverlap haccepted)
  rw [hentries] at hqalist
  have hsubst := toSubst_eq_restrict subst
    ((subBoundvars bs (levelTerms subst bs)).map entry)
    (List.forall_mem_map.2 fun s hs => lookup_of_mem hs)
  have hkeys : ((subBoundvars bs (levelTerms subst bs)).map entry).map Prod.fst =
      (subBoundvars bs (levelTerms subst bs)).map Prod.fst := by
    rw [List.map_map]
    rfl
  have hfreevars : (((subBoundvars bs (levelTerms subst bs)).map entry).flatMap
      fun entry => freevars entry.2) = [] := by
    rw [List.flatMap_eq_nil_iff, List.forall_mem_map]
    exact fun s hs => hterms _ (mem_of_lookup (lookup_of_mem hs))
  refine ⟨tccs, ?_, htccs⟩
  rw [substit, Subst.without_of_disjoint hnone, quantifierStep]
  simp only [subBoundvars_substit hnone, idBoundvars_substit hnone, overlap_substit hclosed hoverlap,
    hqalist, List.reverse_nil, List.nil_append, hfreevars, ne_eq, not_true_eq_false, if_false,
    bound_substit]
  split
  · -- all variables are kept
    rename_i hall
    obtain ⟨hlen, hsame⟩ := idBoundvars_of_length (levelTerms_length subst bs)
    have hsub : subBoundvars bs (levelTerms subst bs) = [] := by
      rw [← List.length_eq_zero_iff]
      omega
    rw [hsame hsub] at hall ⊢
    rw [hsub, List.map_nil, List.append_nil, newexpr, if_neg hall.1, substit,
      Subst.without_of_disjoint hnone]
  · rw [newexpr_substit hids, substit_substit _ hclosed, hsubst, hkeys, restrict_or]

end Level

/-! ### One step in a sequent -/

section Step

variable {sign : Bool} {q : Quantifier} {bs : Bindings ν κ τ} {e : Expr ν κ τ}

variable {before after : List (Expr ν κ τ)} {terms : List (Option (Expr ν κ τ))}
  {qbody : Expr ν κ τ} {tccs : List (Expr ν κ τ)}

/-- A formula that changes is replaced by its instance, or followed by it. -/
theorem runStep_quant (copy : Bool) (hexequal : ∀ a b, C.exequal a b = true ↔ a = b)
    (hbefore : ∀ f ∈ before, isTrivial f = false) (hafter : ∀ f ∈ after, isTrivial f = false)
    (hlen : (bound bs).length = terms.length) (hne : bound bs ≠ [])
    (hstep : quantifierStep C (.quant (levelQuantifier sign) bs e) terms = (qbody, tccs))
    (htccs : .truth false ∉
      C.assertTccforms (before ++ signed sign (.quant (levelQuantifier sign) bs e) :: after) tccs) :
    (qbody = .quant (levelQuantifier sign) bs e →
      runStep C (before ++ signed sign (.quant (levelQuantifier sign) bs e) :: after)
          ⟨fnumFrom 1 (-1) before sign, terms, copy⟩ =
        before ++ signed sign (.quant (levelQuantifier sign) bs e) :: after) ∧
    (qbody ≠ .quant (levelQuantifier sign) bs e →
      runStep C (before ++ signed sign (.quant (levelQuantifier sign) bs e) :: after)
          ⟨fnumFrom 1 (-1) before sign, terms, copy⟩ =
        before ++ ((if copy then [signed sign (.quant (levelQuantifier sign) bs e)] else []) ++
          ([signed sign qbody].filter (!isTrivial ·) ++ after))) := by
  have hmatches : matchesLength (some bs) terms = true := by simp [matchesLength, hlen]
  have hterms : terms.isEmpty = false := by
    cases terms with
    | nil => exact absurd (List.length_eq_zero_iff.1 hlen) hne
    | cons => rfl
  have hfind := findSform_from
    (fun sform => matchesLength (instantiable (body sform).1 (body sform).2) terms) before after
    (isNegation_signed : isNegation (signed sign (.quant (levelQuantifier sign) bs e)) = !sign)
    (show (0 : Int) < 1 by decide) (show (-1 : Int) < 0 by decide) (by simp [hmatches])
  have hfilter : ∀ l : List (Expr ν κ τ), (∀ f ∈ l, isTrivial f = false) →
      l.filter (!isTrivial ·) = l := fun l hl => List.filter_eq_self.2 fun f hf => by simp [hl f hf]
  have hreduce := sformReduce_from (quantStepSform C terms copy) before after
    (isNegation_signed : isNegation (signed sign (.quant (levelQuantifier sign) bs e)) = !sign)
    (show (0 : Int) < 1 by decide) (show (-1 : Int) < 0 by decide) []
  rw [hfilter before hbefore, hfilter after hafter] at hreduce
  constructor
  · intro hsame
    have hexeq : C.exequal qbody (.quant (levelQuantifier sign) bs e) = true :=
      (hexequal _ _).2 hsame
    rw [runStep, quantStep]
    simp only [hterms, hfind, hreduce, quantStepSform, body_signed, instantiable_levelQuantifier,
      hmatches, hstep, hexeq, if_true]
    simp
  · intro hchange
    have hexeq : C.exequal qbody (.quant (levelQuantifier sign) bs e) = false := by
      rw [← Bool.not_eq_true, hexequal]
      exact hchange
    have hany : (C.assertTccforms
        (before ++ signed sign (.quant (levelQuantifier sign) bs e) :: after) tccs).any
        isFalse = false := by
      rw [List.any_eq_false]
      intro tccf hmem hfalse
      exact htccs (isFalse_iff.1 hfalse ▸ hmem)
    rw [runStep, quantStep]
    simp only [hterms, hfind, hreduce, quantStepSform, body_signed, instantiable_levelQuantifier,
      hmatches, hstep, hexeq, if_true]
    cases copy <;> simp [hany]

end Step

/-! ### All steps -/

section Steps

variable {subst : Alist ν κ τ} {q : Quantifier} {e : Expr ν κ τ}

theorem quantSubs_quant (bs : Bindings ν κ τ) (e : Expr ν κ τ) :
    quantSubs q subst (.quant q bs e) = levelTerms subst bs :: quantSubs q subst e := by
  simp [quantSubs]

theorem instantiated_quant (bs : Bindings ν κ τ) (e : Expr ν κ τ) :
    instantiated q subst (.quant q bs e) = subBoundvars bs (levelTerms subst bs) ++
      if bound (idBoundvars bs (levelTerms subst bs)) = [] then instantiated q subst e else [] := by
  simp [instantiated]

theorem remaining_quant (bs : Bindings ν κ τ) (e : Expr ν κ τ) :
    remaining q subst (.quant q bs e) =
      if bound (idBoundvars bs (levelTerms subst bs)) = [] then remaining q subst e
      else .quant q (idBoundvars bs (levelTerms subst bs)) e := by
  simp [remaining]

theorem of_not_quant (subst : Alist ν κ τ) (h : ∀ bs e', e ≠ .quant q bs e') :
    quantSubs q subst e = [] ∧ instantiated q subst e = [] ∧ remaining q subst e = e := by
  cases e with
  | quant q' bs e =>
    have hq : q' ≠ q := fun heq => h bs e (heq ▸ rfl)
    simp [quantSubs, instantiated, remaining, hq]
  | _ => simp [quantSubs, instantiated, remaining]

/-- What the steps need of a formula when the variables `xs` are replaced already -/
structure Ready (C : Checker ν κ τ) (q : Quantifier) (subst : Alist ν κ τ) (xs : List ν)
    (fmla : Expr ν κ τ) : Prop where
  free : ∀ x ∈ freevars fmla, x ∈ xs
  disjoint : ∀ x ∈ quantBndvars q fmla, x ∉ xs
  nodup : (quantBndvars q fmla).Nodup
  nonempty : BindingsNonempty q fmla
  applicable : Applicable C q subst fmla

theorem Ready.body {xs : List ν} {bs : Bindings ν κ τ} (h : Ready C q subst xs (.quant q bs e))
    (hids : bound (idBoundvars bs (levelTerms subst bs)) = []) :
    Ready C q subst (xs ++ (subBoundvars bs (levelTerms subst bs)).map Prod.fst) e := by
  obtain ⟨hfree, hdisjoint, hnodup, hnonempty, ⟨hclosed, haccepted, htccforms, hoverlap⟩⟩ := h
  have hmem : ∀ s ∈ instantiated q subst e, s ∈ instantiated q subst (.quant q bs e) := by
    intro s hs
    rw [instantiated_quant, if_pos hids]
    exact List.mem_append_right _ hs
  simp only [quantBndvars, if_true] at hdisjoint hnodup
  rw [List.nodup_append] at hnodup
  simp only [BindingsNonempty, true_implies] at hnonempty
  simp only [NoOverlap, true_implies] at hoverlap
  refine ⟨fun x hx => ?_, fun x hx hmem => ?_, hnodup.2.1, hnonempty.2,
    ⟨hclosed, fun s hs => haccepted s (hmem s hs), fun sforms tccforms h => ?_, hoverlap.2 hids⟩⟩
  · by_cases hbound : x ∈ bound bs
    · refine List.mem_append_right _ ((bound_cases (levelTerms_length subst bs) hbound).resolve_left
        fun h => ?_)
      rw [hids] at h
      exact nomatch h
    · exact List.mem_append_left _ (hfree x (by simp [freevars, hx, hbound]))
  · obtain hmem | hmem := List.mem_append.1 hmem
    · exact hdisjoint x (List.mem_append_right _ hx) hmem
    · obtain ⟨s, hs, rfl⟩ := List.mem_map.1 hmem
      exact hnodup.2.2 _ (mem_bound_subBoundvars hs) _ hx rfl
  · refine htccforms sforms tccforms fun tccf htccf => ?_
    obtain ⟨s, hs, htccs⟩ := h tccf htccf
    exact ⟨s, hmem s hs, htccs⟩

variable {before after : List (Expr ν κ τ)} {sign : Bool}

theorem runStep_level (hexequal : ∀ a b, C.exequal a b = true ↔ a = b)
    (hbefore : ∀ f ∈ before, isTrivial f = false) (hafter : ∀ f ∈ after, isTrivial f = false)
    {xs : List ν} {bs : Bindings ν κ τ}
    (h : Ready C (levelQuantifier sign) subst xs (.quant (levelQuantifier sign) bs e)) :
    let level := substit (restrict subst xs) (.quant (levelQuantifier sign) bs e)
    let next := substit
      (restrict subst (xs ++ (subBoundvars bs (levelTerms subst bs)).map Prod.fst))
      (newexpr (levelQuantifier sign) (idBoundvars bs (levelTerms subst bs)) e)
    runStep C (before ++ signed sign level :: after)
        ⟨fnumFrom 1 (-1) before sign, levelTerms subst bs, false⟩ =
      before ++ ([signed sign next].filter (!isTrivial ·) ++ after) ∧
    (next ≠ level → runStep C (before ++ signed sign level :: after)
        ⟨fnumFrom 1 (-1) before sign, levelTerms subst bs, true⟩ =
      before ++ (signed sign level :: ([signed sign next].filter (!isTrivial ·) ++ after))) := by
  intro level next
  obtain ⟨hfree, hdisjoint, hnodup, hnonempty, ⟨hclosed, haccepted, htccforms, hoverlap⟩⟩ := h
  simp only [quantBndvars, if_true] at hdisjoint
  simp only [BindingsNonempty, true_implies] at hnonempty
  simp only [NoOverlap, true_implies] at hoverlap
  have hmem : ∀ s ∈ subBoundvars bs (levelTerms subst bs),
      s ∈ instantiated (levelQuantifier sign) subst (.quant (levelQuantifier sign) bs e) := by
    intro s hs
    rw [instantiated_quant]
    exact List.mem_append_left _ hs
  obtain ⟨tccs, hstep, htccs⟩ := quantifierStep_level (q := levelQuantifier sign) hclosed
    (fun x hx => hfree x (by simp [freevars, hx]))
    (fun x hx => hdisjoint x (List.mem_append_left _ hx)) hoverlap.1
    (P := fun tccf => ∃ s ∈ instantiated (levelQuantifier sign) subst
      (.quant (levelQuantifier sign) bs e), ∃ tccs, C.typecheck s.2.2
        (substit subst.toSubst s.2.1) = some (s.2.2, tccs) ∧ tccf ∈ tccs)
    (fun s hs => by
      obtain ⟨tccs, hcheck⟩ := haccepted s (hmem s hs)
      exact ⟨tccs, hcheck, fun tccf htccf => ⟨s, hmem s hs, tccs, hcheck, htccf⟩⟩) e
  have hlevel : level = .quant (levelQuantifier sign) (substit (restrict subst xs) bs)
      (substit ((restrict subst xs).without (bound bs)) e) := by
    simp only [level, substit]
  have hlen : (bound (substit (restrict subst xs) bs)).length = (levelTerms subst bs).length := by
    rw [bound_substit, levelTerms_length subst bs]
  have hne : bound (substit (restrict subst xs) bs) ≠ [] := by
    rw [bound_substit]
    exact hnonempty.1
  have hfalse := htccforms (before ++ signed sign level :: after) tccs htccs
  change quantifierStep C level _ = (next, tccs) at hstep
  generalize next = next at hstep
  rw [hlevel] at hstep hfalse
  have hrun := fun copy => runStep_quant copy hexequal hbefore hafter hlen hne hstep hfalse
  rw [← hlevel] at hrun
  refine ⟨?_, (hrun true).2⟩
  by_cases hsame : next = level
  · rw [(hrun false).1 hsame, hsame, hlevel]
    simp
  · exact (hrun false).2 hsame

/-- The steps for the levels that are left -/
theorem runSteps_levels (hexequal : ∀ a b, C.exequal a b = true ↔ a = b)
    (hbefore : ∀ f ∈ before, isTrivial f = false) (hafter : ∀ f ∈ after, isTrivial f = false)
    {xs : List ν} {fmla : Expr ν κ τ} (h : Ready C (levelQuantifier sign) subst xs fmla)
    (hquant : ∃ bs e, fmla = .quant (levelQuantifier sign) bs e) :
    runSteps C (before ++ signed sign (substit (restrict subst xs) fmla) :: after)
        (makeQuantRule (fnumFrom 1 (-1) before sign) (quantSubs (levelQuantifier sign) subst fmla)) =
      before ++ ([signed sign (substit (restrict subst
        (xs ++ (instantiated (levelQuantifier sign) subst fmla).map Prod.fst))
        (remaining (levelQuantifier sign) subst fmla))].filter (!isTrivial ·) ++ after) := by
  induction fmla using expr_induction generalizing xs with
  | other e hother =>
    obtain ⟨bs, e', heq⟩ := hquant
    exact absurd heq (hother _ _ _)
  | quant q bs e ih =>
    obtain ⟨_, _, heq⟩ := hquant
    obtain ⟨rfl, -, -⟩ := Node.quant.inj heq
    have hstep := (runStep_level hexequal hbefore hafter h).1
    rw [makeQuantRule, quantSubs_quant, through, instantiated_quant, remaining_quant]
    by_cases hids : bound (idBoundvars bs (levelTerms subst bs)) = []
    · have hnone : (levelTerms subst bs).any Option.isNone = false := by
        rw [← Bool.not_eq_true, any_isNone (levelTerms_length subst bs)]
        exact fun hne => hne hids
      rw [newexpr, if_pos hids] at hstep
      rw [hnone, if_neg Bool.false_ne_true, if_pos hids, if_pos hids, List.map_cons, runSteps,
        List.foldl_cons, hstep, List.map_append]
      by_cases hquant : ∃ bs' e', e = .quant (levelQuantifier sign) bs' e'
      · have hrest := ih (h.body hids) hquant
        obtain ⟨bs', e', rfl⟩ := hquant
        rw [List.append_assoc] at hrest
        rw [← hrest, substit]
        simp [runSteps, makeQuantRule]
      · obtain ⟨hsubs, hinst, hrem⟩ := of_not_quant (q := levelQuantifier sign) subst (e := e)
          (by simpa using hquant)
        rw [hsubs, hinst, hrem, List.map_nil, List.append_nil]
        rfl
    · have hsome : (levelTerms subst bs).any Option.isNone = true :=
        (any_isNone (levelTerms_length subst bs)).2 hids
      rw [newexpr, if_neg hids] at hstep
      rw [hsome, if_pos rfl, if_neg hids, if_neg hids, List.append_nil]
      exact hstep

end Steps

/-- Every formula keeps a number after the steps that replace it. -/
structure Sequent (before after : List (Expr ν κ τ)) : Prop where
  before : ∀ f ∈ before, isTrivial f = false
  after : ∀ f ∈ after, isTrivial f = false

theorem WellFormed.ready {q : Quantifier} {subst : Alist ν κ τ} {fmla : Expr ν κ τ}
    (h : WellFormed q fmla) (happ : Applicable C q subst fmla) : Ready C q subst [] fmla :=
  ⟨fun x hx => by simp [h.closed] at hx, fun _ _ => List.not_mem_nil, h.nodup, h.nonempty, happ⟩

/-- The steps of `make-quant-rule` replace the formula by its instance. -/
theorem runSteps_makeQuantRule (hexequal : ∀ a b, C.exequal a b = true ↔ a = b)
    {before after : List (Expr ν κ τ)} (hsequent : Sequent before after) {sign : Bool}
    {subst : Alist ν κ τ} {bs : Bindings ν κ τ} {e : Expr ν κ τ}
    (h : WellFormed (levelQuantifier sign) (.quant (levelQuantifier sign) bs e))
    (happ : Applicable C (levelQuantifier sign) subst (.quant (levelQuantifier sign) bs e)) :
    runSteps C (before ++ signed sign (.quant (levelQuantifier sign) bs e) :: after)
        (makeQuantRule (fnumFrom 1 (-1) before sign)
          (quantSubs (levelQuantifier sign) subst (.quant (levelQuantifier sign) bs e))) =
      before ++ ([signed sign (instanceOf (levelQuantifier sign) subst
        (.quant (levelQuantifier sign) bs e))].filter (!isTrivial ·) ++ after) := by
  have hsteps := runSteps_levels hexequal hsequent.before hsequent.after (h.ready happ)
    ⟨bs, e, rfl⟩
  rwa [restrict_nil, substit_none, List.nil_append] at hsteps

/-- An instance is another formula, unless it is a term of the substitution. -/
theorem instance_ne {q : Quantifier} {subst : Alist ν κ τ} {bs : Bindings ν κ τ} {e : Expr ν κ τ}
    (h : WellFormed q (.quant q bs e)) (hfirst : subBoundvars bs (levelTerms subst bs) ≠ [])
    (hterms : ∀ entry ∈ subst, entry.2 ≠ .quant q bs e) (xs : List ν) :
    substit (restrict subst xs) (newexpr q (idBoundvars bs (levelTerms subst bs)) e) ≠
      .quant q bs e := by
  intro heq
  obtain ⟨-, hnodup, hnonempty⟩ := h
  simp only [quantBndvars, if_true] at hnodup
  simp only [BindingsNonempty, true_implies] at hnonempty
  rw [newexpr] at heq
  split at heq
  · cases e with
    | var x =>
      rw [substit] at heq
      cases hx : restrict subst xs x with
      | none => simp [hx] at heq
      | some t =>
        rw [hx, Option.getD_some] at heq
        rw [restrict] at hx
        split at hx
        · exact hterms (x, t) (mem_of_lookup hx) heq
        · cases hx
    | quant q' bs' e' =>
      rw [substit] at heq
      obtain ⟨rfl, hbs, -⟩ := Node.quant.inj heq
      have hbound : bound bs' = bound bs := by rw [← hbs, bound_substit]
      simp only [quantBndvars, if_true, hbound] at hnodup
      obtain ⟨x, hx⟩ := List.exists_mem_of_ne_nil _ hnonempty.1
      exact (List.nodup_append.1 hnodup).2.2 x hx x (List.mem_append_left _ hx) rfl
    | _ => simp [substit] at heq
  · rw [substit] at heq
    obtain ⟨-, hbs, -⟩ := Node.quant.inj heq
    have hbound : bound (idBoundvars bs (levelTerms subst bs)) = bound bs := by
      rw [← bound_substit (σ := restrict subst xs), hbs]
    have hlen := (idBoundvars_of_length (levelTerms_length subst bs)).1
    rw [hbound] at hlen
    exact hfirst (List.length_eq_zero_iff.1 (by omega))

omit [DecidableEq ν] in
theorem fnumFrom_lt_zero (before : List (Expr ν κ τ)) (sign : Bool) :
    fnumFrom 1 (-1) before sign < 0 ↔ sign = false := by
  cases sign <;> simp [fnumFrom] <;> omega

omit [DecidableEq ν] in
theorem fnumFrom_copy {before : List (Expr ν κ τ)} {sign : Bool} {sform : Expr ν κ τ}
    (h : isNegation sform = !sign) :
    fnumFrom 1 (-1) (before ++ [sform]) sign = if fnumFrom 1 (-1) before sign < 0 then
      fnumFrom 1 (-1) before sign - 1 else fnumFrom 1 (-1) before sign + 1 := by
  have hlt := fnumFrom_lt_zero before sign
  cases sign <;> simp [fnumFrom, consequents, antecedents, h] at hlt ⊢ <;> omega

/-- The steps of `make-copy-quant-rule` put the same instance after the formula. -/
theorem runSteps_makeCopyQuantRule (hexequal : ∀ a b, C.exequal a b = true ↔ a = b)
    {before after : List (Expr ν κ τ)} (hsequent : Sequent before after) {sign : Bool}
    {subst : Alist ν κ τ} {bs : Bindings ν κ τ} {e : Expr ν κ τ}
    (h : WellFormed (levelQuantifier sign) (.quant (levelQuantifier sign) bs e))
    (happ : Applicable C (levelQuantifier sign) subst (.quant (levelQuantifier sign) bs e))
    {coalesced : Bool}
    (hcoalesced : coalesced = true ∨
      ∀ nt ∈ (quantSubs (levelQuantifier sign) subst (.quant (levelQuantifier sign) bs e)).dropLast,
        nt.any Option.isNone = false)
    (hfirst : subBoundvars bs (levelTerms subst bs) ≠ [])
    (hterms : ∀ entry ∈ subst, entry.2 ≠ .quant (levelQuantifier sign) bs e) :
    runSteps C (before ++ signed sign (.quant (levelQuantifier sign) bs e) :: after)
        (makeCopyQuantRule coalesced (fnumFrom 1 (-1) before sign)
          (quantSubs (levelQuantifier sign) subst (.quant (levelQuantifier sign) bs e))) =
      before ++ (signed sign (.quant (levelQuantifier sign) bs e) ::
        ([signed sign (instanceOf (levelQuantifier sign) subst
          (.quant (levelQuantifier sign) bs e))].filter (!isTrivial ·) ++ after)) := by
  have hready := h.ready happ
  have hstep := (runStep_level hexequal hsequent.before hsequent.after hready).2
  rw [restrict_nil, substit_none] at hstep
  have hcopy := hstep (instance_ne h hfirst hterms _)
  rw [makeCopyQuantRule, through_coalesced hcoalesced, quantSubs_quant, through, instanceOf,
    instantiated_quant, remaining_quant]
  rw [List.nil_append] at hcopy
  by_cases hids : bound (idBoundvars bs (levelTerms subst bs)) = []
  · have hnone : (levelTerms subst bs).any Option.isNone = false := by
      rw [← Bool.not_eq_true, any_isNone (levelTerms_length subst bs)]
      exact fun hne => hne hids
    rw [newexpr, if_pos hids] at hcopy
    rw [hnone, if_neg Bool.false_ne_true, if_pos hids, if_pos hids, List.map_append]
    simp only [runSteps, List.foldl_cons, hcopy]
    by_cases hquant : ∃ bs' e', e = .quant (levelQuantifier sign) bs' e'
    · have hbefore : ∀ f ∈ before ++ [signed sign (.quant (levelQuantifier sign) bs e)],
          isTrivial f = false := by
        simpa [or_imp, forall_and] using hsequent.before
      have hrest := runSteps_levels hexequal hbefore hsequent.after (hready.body hids) hquant
      rw [fnumFrom_copy isNegation_signed, List.nil_append] at hrest
      obtain ⟨bs', e', rfl⟩ := hquant
      rw [substit] at hrest ⊢
      simpa [runSteps, makeQuantRule] using hrest
    · obtain ⟨hsubs, hinst, hrem⟩ := of_not_quant (q := levelQuantifier sign) subst (e := e)
        (by simpa using hquant)
      rw [hsubs, hinst, hrem, List.map_nil, List.append_nil]
      rfl
  · have hsome : (levelTerms subst bs).any Option.isNone = true :=
      (any_isNone (levelTerms_length subst bs)).2 hids
    rw [newexpr, if_neg hids] at hcopy
    rw [hsome, if_pos rfl, if_neg hids, if_neg hids, List.append_nil]
    exact hcopy

/-- The steps replace the formula by its instance, or put the same instance after it. -/
theorem inst_steps (hexequal : ∀ a b, C.exequal a b = true ↔ a = b)
    {before after : List (Expr ν κ τ)} (hsequent : Sequent before after) (sign : Bool)
    (subst : Alist ν κ τ) (bs : Bindings ν κ τ) (e : Expr ν κ τ)
    (h : WellFormed (levelQuantifier sign) (.quant (levelQuantifier sign) bs e))
    (happ : Applicable C (levelQuantifier sign) subst (.quant (levelQuantifier sign) bs e)) :
    let fmla := .quant (levelQuantifier sign) bs e
    let fnum := fnumFrom 1 (-1) before sign
    let newterms := quantSubs (levelQuantifier sign) subst fmla
    let inst := [signed sign (instanceOf (levelQuantifier sign) subst fmla)].filter (!isTrivial ·)
    runSteps C (before ++ signed sign fmla :: after) (makeQuantRule fnum newterms) =
      before ++ (inst ++ after) ∧
    ∀ coalesced : Bool,
      (coalesced = true ∨ ∀ nt ∈ newterms.dropLast, nt.any Option.isNone = false) →
      subBoundvars bs (levelTerms subst bs) ≠ [] → (∀ entry ∈ subst, entry.2 ≠ fmla) →
      runSteps C (before ++ signed sign fmla :: after)
          (makeCopyQuantRule coalesced fnum newterms) =
        before ++ (signed sign fmla :: (inst ++ after)) :=
  ⟨runSteps_makeQuantRule hexequal hsequent h happ, fun _ hcoalesced hfirst hterms =>
    runSteps_makeCopyQuantRule hexequal hsequent h happ hcoalesced hfirst hterms⟩

/-- A checker that accepts all terms -/
def plainChecker : Checker Nat Nat Nat where
  typecheck term _ := some (term, [])
  assertTccforms _ tccforms := tccforms
  exequal a b := decide (a = b)

/-- `EXISTS (x, y: T): EXISTS (z: T): P(x)(y)(z)` -/
def nested : Expr Nat Nat Nat :=
  .quant .exist (.cons 0 (.name 0) (.cons 1 (.name 0) .nil))
    (.quant .exist (.cons 2 (.name 0) .nil)
      (.application (.application (.application (.constant 0) (.var 0)) (.var 1)) (.var 2)))

/-- The instance of it for `x` and `y` -/
def nestedInstance : Expr Nat Nat Nat :=
  .quant .exist (.cons 2 (.name 0) .nil)
    (.application (.application (.application (.constant 0) (.constant 1)) (.constant 2)) (.var 2))

theorem inst_steps_nested :
    runSteps plainChecker [nested]
        (makeQuantRule 1 (quantSubs .exist [(0, .constant 1), (1, .constant 2)] nested)) =
      [nestedInstance] ∧
    runSteps plainChecker [nested] (makeCopyQuantRule false 1
        (quantSubs .exist [(0, .constant 1), (1, .constant 2)] nested)) =
      [nested, nestedInstance] := by
  have hinstance : instanceOf .exist [(0, .constant 1), (1, .constant 2)] nested =
      nestedInstance := by
    decide +kernel
  obtain ⟨hquant, hcopy⟩ := inst_steps (C := plainChecker) (by simp [plainChecker])
    (⟨nofun, nofun⟩ : Sequent [] []) true [(0, .constant 1), (1, .constant 2)]
    (.cons 0 (.name 0) (.cons 1 (.name 0) .nil)) (.quant .exist (.cons 2 (.name 0) .nil)
      (.application (.application (.application (.constant 0) (.var 0)) (.var 1)) (.var 2)))
    ⟨by simp [freevars], by simp [levelQuantifier, quantBndvars],
      by simp [levelQuantifier, BindingsNonempty]⟩
    { closed := by simp [freevars]
      accepted := fun s _ => ⟨[], rfl⟩
      tccforms := by
        intro sforms tccforms h hfalse
        obtain ⟨s, -, tccs, hcheck, hmem⟩ := h _ hfalse
        obtain ⟨-, rfl⟩ := Prod.mk.inj (Option.some.inj hcheck)
        cases hmem
      noOverlap := by
        simp [levelQuantifier, NoOverlap, overlap, subBoundvars, idBoundvars, levelTerms, freevars,
          List.lookup] }
  have hplaceholder : ∀ nt ∈ (quantSubs .exist [(0, .constant 1), (1, .constant 2)]
      nested).dropLast, nt.any Option.isNone = false := by
    decide +kernel
  have hcopy := hcopy false (.inr hplaceholder) (by
    simp [levelTerms, subBoundvars, List.lookup]) (by simp)
  refine ⟨hquant.trans ?_, hcopy.trans ?_⟩
  · decide +kernel
  · decide +kernel

/-- `EXISTS (x: T, y: {z: T | R(x)(z)}): P(y)` -/
def dependentPair : Expr Nat Nat Nat :=
  .quant .exist
    (.cons 0 (.name 0) (.cons 1 (.subtype 2 (.name 0)
      (.application (.application (.constant 0) (.var 0)) (.var 2))) .nil))
    (.application (.constant 1) (.var 1))

/-- A term for `y` alone is refused. -/
theorem not_inst_steps :
    runSteps plainChecker [dependentPair]
        (makeQuantRule 1 (quantSubs .exist [(1, .constant 2)] dependentPair)) = [dependentPair] ∧
      instanceOf .exist [(1, .constant 2)] dependentPair ≠ dependentPair := by
  decide +kernel

end PVS.Quantifiers
