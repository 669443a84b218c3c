import PVS.Prover.QuantifierSound
import PVS.Prover.SkolemStep

/-! What the subgoal of a skolemization is good for -/

namespace PVS.Quantifiers

open Library.Dependent

variable {ν κ τ ι D : Type}

theorem entries_constants {bs : Bindings ν κ τ} {s : ν × TypeExpr ν κ τ} (hs : s ∈ entries bs)
    {c : κ} (hc : c ∈ constants s.2) : c ∈ constants bs := by
  induction bs using bindings_induction with
  | nil => simp at hs
  | cons x type rest ih =>
    rw [entries_cons, List.mem_cons] at hs
    rw [constants, List.mem_append]
    obtain rfl | hs := hs
    · exact .inl hc
    · exact .inr (ih hs)

theorem mem_entries_of_subBoundvars {α : Type} {bs : Bindings ν κ τ} {terms : List (Option α)}
    {s : ν × TypeExpr ν κ τ × α} (h : s ∈ subBoundvars bs terms) : (s.1, s.2.1) ∈ entries bs := by
  induction bs using bindings_induction generalizing terms with
  | nil => simp at h
  | cons y type rest ih =>
    match terms with
    | [] => simp [subBoundvars] at h
    | none :: terms =>
      simp only [subBoundvars, entries_cons, List.mem_cons] at h ⊢
      exact .inr (ih h)
    | some t :: terms =>
      simp only [subBoundvars, entries_cons, List.mem_cons] at h ⊢
      obtain rfl | h := h
      · exact .inl rfl
      · exact .inr (ih h)

theorem mem_entries_idBoundvars {α : Type} {bs : Bindings ν κ τ} {terms : List (Option α)}
    {s : ν × TypeExpr ν κ τ} (h : s ∈ entries (idBoundvars bs terms)) : s ∈ entries bs := by
  induction bs using bindings_induction generalizing terms with
  | nil => simp at h
  | cons y type rest ih =>
    match terms with
    | [] => simp [idBoundvars] at h
    | none :: terms =>
      simp only [idBoundvars, entries_cons, List.mem_cons] at h ⊢
      exact h.imp_right ih
    | some t :: terms =>
      simp only [idBoundvars, entries_cons, List.mem_cons] at h ⊢
      exact .inr (ih h)

/-- Constants that are new can be given any values. -/
theorem exists_values {made : List (ν × κ)} (h : (made.map Prod.snd).Nodup) (values : κ → D)
    (ρ : ν → D) : ∃ values' : κ → D, (∀ a ∈ made, values' a.2 = ρ a.1) ∧
      ∀ c, c ∉ made.map Prod.snd → values' c = values c := by
  classical
  induction made with
  | nil => exact ⟨values, nofun, fun _ _ => rfl⟩
  | cons a made ih =>
    rw [List.map_cons, List.nodup_cons] at h
    obtain ⟨values', hmade, hother⟩ := ih h.2
    refine ⟨Function.update values' a.2 (ρ a.1), fun b hb => ?_, fun c hc => ?_⟩
    · obtain rfl | hb := List.mem_cons.1 hb
      · rw [Function.update_self]
      · rw [Function.update_of_ne fun heq : b.2 = a.2 => h.1 (heq ▸ List.mem_map_of_mem hb)]
        exact hmade b hb
    · rw [List.map_cons, List.mem_cons, not_or] at hc
      rw [Function.update_of_ne hc.1]
      exact hother c hc.2

variable [DecidableEq ν] [DecidableEq ι] {T : Constants ν κ τ ι}

/-! ### The constants -/

omit [DecidableEq ν] in
theorem checkSkolem_eq_nil {sub : List (ν × TypeExpr ν κ τ × SkolemTerm ι)}
    {context : List (Declaration κ ι)} (h : checkSkolem T sub context = []) :
    ∀ s ∈ sub, ∃ id, s.2.2 = .name id ∧ declared T id context = false := by
  intro s hs
  rw [checkSkolem, List.map_eq_nil_iff, List.filter_eq_nil_iff] at h
  have hcheck := h s hs
  obtain ⟨x, type, term⟩ := s
  cases term with
  | other => simp at hcheck
  | name id =>
    simp only [Bool.or_eq_true, not_or, Bool.not_eq_true] at hcheck
    exact ⟨id, rfl, hcheck.1⟩

omit [DecidableEq ι] in
theorem makeSkolemAlist_spec {sub : List (ν × TypeExpr ν κ τ × SkolemTerm ι)}
    {context context' : List (Declaration κ ι)} {alist made : List (ν × κ)}
    (hnames : ∀ s ∈ sub, ∃ id, s.2.2 = .name id)
    (h : makeSkolemAlist T sub context alist = (made, context')) :
    ∃ new, made = alist.reverse ++ new ∧ new.map Prod.fst = sub.map Prod.fst ∧
      new.map (fun a => T.id a.2) = sub.filterMap (·.2.2.id?) ∧
      (∀ a ∈ new, T.current a.2 = true) ∧
      ∀ earlier a later, new = earlier ++ a :: later → ∃ s ∈ sub, s.1 = a.1 ∧
        s.2.2 = .name (T.id a.2) ∧
        (∃ before after, sub = before ++ s :: after ∧ earlier.map Prod.fst = before.map Prod.fst) ∧
        T.type a.2 = substit (constantAlist (earlier.reverse ++ alist)).toSubst s.2.1 := by
  induction sub generalizing context alist with
  | nil =>
    rw [makeSkolemAlist] at h
    · exact ⟨[], by simp [(Prod.mk.inj h).1], rfl, rfl, nofun, by simp⟩
    · exact nofun
  | cons s sub ih =>
    obtain ⟨x, type, term⟩ := s
    obtain ⟨id, hid⟩ := hnames _ (List.mem_cons_self ..)
    simp only at hid
    subst hid
    rw [makeSkolemAlist] at h
    obtain ⟨new, rfl, hkeys, hids, hcurrent, hnew⟩ :=
      ih (fun s hs => hnames s (List.mem_cons_of_mem _ hs)) h
    refine ⟨(x, T.skolemConst id (substit (constantAlist alist).toSubst type)) :: new, by simp,
      by simp [hkeys], by simp [hids, T.id_skolemConst, SkolemTerm.id?], ?_, ?_⟩
    · rw [List.forall_mem_cons]
      exact ⟨T.current_skolemConst _ _, hcurrent⟩
    · intro earlier a later heq
      cases earlier with
      | nil =>
        obtain ⟨rfl, -⟩ := List.cons.inj heq
        exact ⟨_, List.mem_cons_self .., rfl, by rw [T.id_skolemConst], ⟨[], sub, rfl, rfl⟩,
          T.type_skolemConst _ _⟩
      | cons b earlier =>
        obtain ⟨rfl, rfl⟩ := List.cons.inj heq
        obtain ⟨s, hs, hx, hid, ⟨before, after, rfl, hbefore⟩, htype⟩ := hnew earlier a later rfl
        refine ⟨s, List.mem_cons_of_mem _ hs, hx, hid, ⟨_ :: before, after, rfl, ?_⟩, ?_⟩
        · simp [hbefore]
        · simpa using htype

theorem toSubst_reverse {alist : Alist ν κ τ} (h : (alist.map Prod.fst).Nodup) :
    Alist.toSubst alist.reverse = alist.toSubst := by
  have hreverse : (alist.reverse.map Prod.fst).Nodup := by
    rwa [List.map_reverse, List.nodup_reverse]
  funext x
  by_cases hx : x ∈ alist.map Prod.fst
  · obtain ⟨a, ha, rfl⟩ := List.mem_map.1 hx
    rw [Alist.toSubst, Alist.toSubst, lookup_of_nodup (t := a.2) hreverse (by simpa using ha),
      lookup_of_nodup (t := a.2) h ha]
  · have hnone : ∀ l : Alist ν κ τ, x ∉ l.map Prod.fst → l.toSubst x = none := fun l hl => by
      rw [← Option.not_isSome_iff_eq_none, toSubst_isSome]
      exact hl
    rw [hnone alist hx, hnone alist.reverse (by simpa using hx)]

omit [DecidableEq ν] in
theorem map_fst_constantAlist (made : List (ν × κ)) :
    (constantAlist made : Alist ν κ τ).map Prod.fst = made.map Prod.fst := by
  rw [constantAlist, List.map_map]
  rfl

/-- The constants that a skolemization makes -/
structure Made (T : Constants ν κ τ ι) (context : List (Declaration κ ι)) (bs : Bindings ν κ τ)
    (terms : List (Option (SkolemTerm ι))) (made : List (ν × κ)) : Prop where
  keys : made.map Prod.fst = (subBoundvars bs terms).map Prod.fst
  keysNodup : (made.map Prod.fst).Nodup
  nodup : (made.map Prod.snd).Nodup
  new : ∀ a ∈ made, T.current a.2 = true ∧ declared T (T.id a.2) context = false
  type : ∀ earlier a later, made = earlier ++ a :: later → ∃ s ∈ subBoundvars bs terms,
    s.1 = a.1 ∧
    (∃ before after, subBoundvars bs terms = before ++ s :: after ∧
      earlier.map Prod.fst = before.map Prod.fst) ∧
    T.type a.2 = substit (constantAlist earlier).toSubst s.2.1

theorem made_of_makeSkolemAlist {bs : Bindings ν κ τ} {terms : List (Option (SkolemTerm ι))}
    {context context' : List (Declaration κ ι)} {made : List (ν × κ)}
    (hcheck : checkSkolem T (subBoundvars bs terms) context = [])
    (hduplicates : duplicates (subBoundvars bs terms) = false) (hnodup : (bound bs).Nodup)
    (h : makeSkolemAlist T (subBoundvars bs terms) context [] = (made, context')) :
    Made T context bs terms made := by
  have hnames := checkSkolem_eq_nil hcheck
  obtain ⟨new, rfl, hkeys, hids, hcurrent, hnew⟩ :=
    makeSkolemAlist_spec (fun s hs => (hnames s hs).imp fun _ h => h.1) h
  have hkeysNodup : (made.map Prod.fst).Nodup := by
    rw [hkeys]
    exact nodup_subBoundvars hnodup
  refine ⟨hkeys, hkeysNodup, ?_, fun a ha => ⟨hcurrent a ha, ?_⟩, fun earlier a later heq => ?_⟩
  · have hidsNodup : (made.map fun a => T.id a.2).Nodup := by
      rw [hids]
      simpa [duplicates] using hduplicates
    exact List.Nodup.of_map T.id (by rwa [List.map_map])
  · obtain ⟨earlier, later, heq⟩ := List.append_of_mem ha
    obtain ⟨s, hs, -, hname, -⟩ := hnew earlier a later heq
    obtain ⟨id, hid, hdeclared⟩ := hnames s hs
    rw [hname, SkolemTerm.name.injEq] at hid
    rwa [hid]
  · obtain ⟨s, hs, hx, -, hsplit, htype⟩ := hnew earlier a later heq
    refine ⟨s, hs, hx, hsplit, ?_⟩
    have hreverse : (constantAlist earlier.reverse : Alist ν κ τ) =
        (constantAlist earlier).reverse := by
      rw [constantAlist, List.map_reverse, constantAlist]
    rw [htype, List.append_nil, hreverse, toSubst_reverse]
    rw [map_fst_constantAlist]
    rw [show made = earlier ++ a :: later from heq, List.map_append] at hkeysNodup
    exact (List.nodup_append.1 hkeysNodup).1

section Values

variable {context : List (Declaration κ ι)} {bs : Bindings ν κ τ}
  {terms : List (Option (SkolemTerm ι))} {made : List (ν × κ)}

theorem Made.toSubst (h : Made T context bs terms made) {a : ν × κ} (ha : a ∈ made) :
    (constantAlist made : Alist ν κ τ).toSubst a.1 = some (.constant a.2) := by
  refine lookup_of_nodup ?_ (List.mem_map_of_mem ha)
  rw [map_fst_constantAlist]
  exact h.keysNodup

theorem closed_constantAlist (made : List (ν × κ)) :
    (constantAlist made : Alist ν κ τ).toSubst.Closed := by
  intro x t ht
  obtain ⟨a, -, ha⟩ := List.mem_map.1 (mem_of_lookup ht)
  rw [← (Prod.mk.inj ha).2, freevars]

theorem Made.replaces (h : Made T context bs terms made) :
    Replaces (constantAlist made : Alist ν κ τ).toSubst bs terms := by
  refine ⟨closed_constantAlist made, fun x => ?_⟩
  rw [toSubst_isSome, map_fst_constantAlist, h.keys]

/-- The constants have the values of the variables. -/
theorem Made.assign (h : Made T context bs terms made) {M : Model κ τ D} {ρ ρ' : ν → D}
    (hvalues : ∀ a ∈ made, M.constant a.2 = ρ' a.1) (houter : ∀ x, x ∉ bound bs → ρ' x = ρ x)
    (hlen : (bound bs).length = terms.length) :
    (constantAlist made : Alist ν κ τ).toSubst.assign M
      (fun x => if x ∈ bound (idBoundvars bs terms) then ρ' x else ρ x) = ρ' := by
  funext x
  by_cases hx : x ∈ made.map Prod.fst
  · obtain ⟨a, ha, rfl⟩ := List.mem_map.1 hx
    rw [Subst.assign_of_some (h.toSubst ha), eval, hvalues a ha]
  · have hnone : (constantAlist made : Alist ν κ τ).toSubst x = none := by
      rwa [← Option.not_isSome_iff_eq_none, toSubst_isSome, map_fst_constantAlist]
    rw [Subst.assign_of_none hnone]
    split
    · rfl
    · rename_i hids
      refine (houter x fun hbound => ?_).symm
      obtain hkept | hsub := bound_cases hlen hbound
      · exact hids hkept
      · exact hx (h.keys ▸ hsub)

end Values

end PVS.Quantifiers
