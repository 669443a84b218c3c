import PVS.Assert.NestedUpdatesRecord

/-! The condition under which nested updates keep their value. -/

namespace PVS.Assert

open Library Components

variable {I C B V W R Env : Type} {M : UpdMeaning I C B V W R Env} (T : TcEq M)

namespace TcEq

/-- Complete and curried assignments to a component do not get in each other's way. -/
inductive Preserved : UpdExpr I C B → List (Assignment I (UpdExpr I C B)) → Prop where
  | other (b : B) (outer : List (Assignment I (UpdExpr I C B))) : Preserved (.other b) outer
  | update (e : UpdExpr I C B) (as outer : List (Assignment I (UpdExpr I C B))) :
      Preserved (.update e as) outer
  | constructor (c : C) (es : List (UpdExpr I C B))
      (outer : List (Assignment I (UpdExpr I C B))) : Preserved (.constructor c es) outer
  | tuple {es : List (UpdExpr I C B)} {outer : List (Assignment I (UpdExpr I C B))}
      (h : ∀ i < es.length, TupleOk M (T.matching (.proj (i + 1)) outer)) :
      Preserved (.tuple es) outer
  | record {as : List (ℕ × UpdExpr I C B)} {outer : List (Assignment I (UpdExpr I C B))}
      (complete : ∀ f e, LastField f e as → ∀ before x after,
        T.matching (.name f) outer = before ++ ([], x) :: after → (∀ m ∈ after, m.1 ≠ []) →
        ∀ ρ, M.comps.override (M.eval ρ x) (M.evalMatching ρ after) = M.eval ρ x)
      (curried : ∀ f e, LastField f e as → T.matching (.name f) outer ≠ [] →
        (∀ m ∈ T.matching (.name f) outer, m.1 ≠ []) →
        Preserved e (makeAssignments (T.matching (.name f) outer)))
      (missing : ∀ f, f ∉ as.map (·.1) → ∀ ρ,
        M.comps.override (M.comps.get M.emptyRecord (.name f))
            (M.evalMatching ρ ((T.matching (.name f) outer).filter (fun m => m.1.isEmpty) ++
              (T.matching (.name f) outer).filter fun m => !m.1.isEmpty)) =
          M.comps.override (M.comps.get M.emptyRecord (.name f))
            (M.evalMatching ρ (T.matching (.name f) outer))) :
      Preserved (.record as) outer

theorem preserved_record_iff (as : List (ℕ × UpdExpr I C B))
    (outer : List (Assignment I (UpdExpr I C B))) :
    T.Preserved (.record as) outer ↔ T.RecordOk T.Preserved as outer := by
  constructor
  · intro h
    cases h with
    | record complete curried missing =>
      exact ⟨fun f e hlast => ⟨complete f e hlast, curried f e hlast⟩, missing⟩
  · intro h
    exact .record (fun f e hlast => (h.field f e hlast).complete)
      (fun f e hlast => (h.field f e hlast).curried) h.missing

theorem preserved_tuple_iff (es : List (UpdExpr I C B))
    (outer : List (Assignment I (UpdExpr I C B))) :
    T.Preserved (.tuple es) outer ↔
      ∀ i < es.length, TupleOk M (T.matching (.proj (i + 1)) outer) := by
  constructor
  · intro h
    cases h with
    | tuple h => exact h
  · exact .tuple

/-! ### One assignment -/

theorem matching_singleton (b : Arg I) (a : Assignment I (UpdExpr I C B)) :
    T.matching b [a] = [(a.rest, a.expression)] ∨ T.matching b [a] = [] := by
  rw [matching_cons]
  split
  · exact .inl rfl
  · exact .inr rfl

theorem eq_nil_of_matching_singleton {b : Arg I} {a : Assignment I (UpdExpr I C B)}
    {before after : List (List (Arg I) × UpdExpr I C B)} {m : List (Arg I) × UpdExpr I C B}
    (h : T.matching b [a] = before ++ m :: after) : before = [] ∧ after = [] := by
  obtain hm | hm := T.matching_singleton b a
  all_goals
    rw [hm] at h
    have hlen := congrArg List.length h
    simp only [List.length_append, List.length_cons, List.length_nil] at hlen
  · exact ⟨List.length_eq_zero_iff.1 (by omega), List.length_eq_zero_iff.1 (by omega)⟩
  · omega

theorem tupleOk_singleton (b : Arg I) (a : Assignment I (UpdExpr I C B)) :
    TupleOk M (T.matching b [a]) := by
  intro before x after hms _ ρ
  obtain ⟨rfl, rfl⟩ := T.eq_nil_of_matching_singleton hms
  rfl

/-- A single assignment has no other one to get in the way. -/
theorem preserved_singleton (X : UpdExpr I C B) (a : Assignment I (UpdExpr I C B)) :
    T.Preserved X [a] := by
  induction hn : a.rest.length using Nat.strongRecOn generalizing X a with
  | ind n ih =>
    cases X with
    | other b => exact .other b _
    | update e as => exact .update e as _
    | constructor c es => exact .constructor c es _
    | tuple es => exact .tuple fun i _ => T.tupleOk_singleton _ a
    | record as =>
      refine (T.preserved_record_iff as _).2 ⟨fun f e _ => ⟨fun before x after hms _ ρ => ?_, fun hne hcurried => ?_⟩,
        fun f _ ρ => ?_⟩
      · obtain ⟨rfl, rfl⟩ := T.eq_nil_of_matching_singleton hms
        rfl
      · obtain hm | hm := T.matching_singleton (.name f) a
        · rw [hm] at hcurried ⊢
          cases hrest : a.rest with
          | nil => exact absurd hrest (hcurried _ (List.mem_singleton_self _))
          | cons b p =>
            refine ih p.length ?_ e ⟨b, p, a.expression⟩ rfl
            rw [← hn, hrest]
            exact Nat.lt_succ_self _
        · exact absurd hm hne
      · obtain hm | hm := T.matching_singleton (.name f) a
        · rw [hm]
          cases a.rest <;> rfl
        · rw [hm]
          rfl

/-! ### Constructor applications -/

omit T in
theorem get_construct {c : C} {l : List V} {acc i : ℕ} {v : V}
    (hpos : (M.accessors c).idxOf? acc = some i) (h : l[i]? = some v) :
    M.comps.get (M.construct c l) (.name acc) = v := by
  obtain ⟨hlt, hv⟩ := List.getElem?_eq_some_iff.1 h
  have hput := M.put_construct v hpos hlt
  rw [← hv, List.set_getElem_self, hv] at hput
  rw [← hput, M.comps.get_put_self]

omit T in
theorem override_construct_cons {c : C} {l : List V} {acc i : ℕ} {v : V}
    (hpos : (M.accessors c).idxOf? acc = some i) (h : l[i]? = some v) (p : List (Key W)) (x : V)
    (outer : List (List (Key W) × V)) :
    M.comps.override (M.construct c l) ((.name acc :: p, x) :: outer) =
      M.comps.override (M.construct c (l.set i (M.comps.update v p x))) outer := by
  rw [← M.put_construct _ hpos (List.getElem?_eq_some_iff.1 h).1, ← get_construct hpos h]
  rfl

theorem constructor_value {c : C} {assigns : List (Assignment I (UpdExpr I C B))}
    {es : List (UpdExpr I C B)} {r : UpdExpr I C B}
    (h : T.simplifyConstructorNestedUpdate c assigns es = some r)
    (hone : ∀ a ∈ assigns, ∀ b p e e', a.rest = b :: p →
      T.simplifyNestedUpdates e [⟨b, p, a.expression⟩] = some e' → ∀ ρ, M.eval ρ e' =
        M.comps.override (M.eval ρ e) (M.evalAssignments ρ [⟨b, p, a.expression⟩])) (ρ : Env) :
    M.eval ρ r =
      M.comps.override (M.eval ρ (.constructor c es)) (M.evalAssignments ρ assigns) := by
  induction assigns generalizing es with
  | nil =>
    rw [simplifyConstructorNestedUpdate] at h
    rw [← Option.some.inj h]
    rfl
  | cons a assigns ih =>
    obtain ⟨first, assArgs, value⟩ := a
    rw [List.forall_mem_cons] at hone
    cases first with
    | proj n => simp [simplifyConstructorNestedUpdate] at h
    | index i => simp [simplifyConstructorNestedUpdate] at h
    | name acc =>
      rw [simplifyConstructorNestedUpdate] at h
      split at h
      · cases h
      rename_i pos hpos
      split at h
      · cases h
      rename_i exprArg hexpr
      dsimp only at h
      split at h
      · cases h
      rename_i newArg hnew
      have harg : M.eval ρ newArg = M.comps.update (M.eval ρ exprArg) (assArgs.map (M.key ρ))
          (M.eval ρ value) := by
        cases assArgs with
        | nil =>
          rw [← Option.some.inj hnew]
          rfl
        | cons b p =>
          rw [hone.1 b p exprArg newArg rfl hnew ρ, UpdMeaning.evalAssignments,
            UpdMeaning.evalAssignments]
          rfl
      have hargs : (if T.expr exprArg newArg then es else es.set pos newArg).map (M.eval ρ) =
          (es.map (M.eval ρ)).set pos (M.eval ρ newArg) := by
        split
        · rename_i heq
          rw [← T.expr_sound heq ρ]
          obtain ⟨hlt, hval⟩ := List.getElem?_eq_some_iff.1 hexpr
          rw [← hval, ← List.getElem_map (M.eval ρ), List.set_getElem_self]
          rwa [List.length_map]
        · rw [List.map_set]
      rw [ih h hone.2, UpdMeaning.eval, UpdMeaning.eval, UpdMeaning.evalList_eq_map,
        UpdMeaning.evalList_eq_map, hargs, harg, UpdMeaning.evalAssignments]
      refine (override_construct_cons hpos ?_ _ _ _).symm
      rw [List.getElem?_map, hexpr]
      rfl

end TcEq

/-- Atoms are numbers, and the values are given by paths; there are no constructors. -/
def atoms : UpdMeaning ℕ Empty ℕ (List (Key ℕ) → ℕ) ℕ ℕ Unit where
  comps := paths
  accessors := nofun
  index _ i := i
  other _ b := fun _ => b
  emptyRecord := fun _ => 0
  tuple l
    | .proj (i + 1) :: p => (l[i]?.getD fun _ => 0) p
    | _ => 0
  construct := nofun
  put_tuple {l i} x hi := by
    funext p
    match p with
    | [] => rfl
    | .name _ :: _ => rfl
    | .index _ :: _ => rfl
    | .proj 0 :: _ => rfl
    | .proj (j + 1) :: p =>
      by_cases hij : i = j
      · subst hij
        simp [paths, hi]
      · simp [paths, hij, Ne.symm hij]
  put_construct {c} := nomatch c

def atomsTcEq : TcEq atoms where
  index i j := i = j
  expr _ _ := false
  index_sound h _ := of_decide_eq_true h
  expr_sound h := nomatch h

namespace TcEq

end TcEq

end PVS.Assert
