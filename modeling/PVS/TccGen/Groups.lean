import Mathlib.Data.List.Perm.Subperm
import PVS.TccGen.Conditions

/-! A group of bindings and the conditions inside of it. -/

namespace PVS.TccGen

variable {T : Terms}

/-! ### New names -/

theorem append_toString_injective (base : String) :
    Function.Injective fun n : ℕ => base ++ toString n := by
  intro m n h
  have hlist : base.toList ++ (toString m).toList = base.toList ++ (toString n).toList := by
    rw [← String.toList_append, ← String.toList_append]
    exact congrArg String.toList h
  have hdigits : Nat.toDigits 10 m = Nat.toDigits 10 n := by
    rw [← Nat.toList_repr, ← Nat.toList_repr]
    exact List.append_cancel_left hlist
  rw [← Nat.ofDigitChars_ten_toDigits (n := m), hdigits, Nat.ofDigitChars_ten_toDigits]

theorem mem_of_makeNewVariable_mem {base : String} {ids : List String} {fuel num : ℕ}
    (h : makeNewVariable base ids fuel num ∈ ids) :
    ∀ k ≤ fuel, base ++ toString (num + k) ∈ ids := by
  induction fuel generalizing num with
  | zero =>
    intro k hk
    rw [Nat.le_zero.1 hk]
    exact h
  | succ fuel ih =>
    rw [makeNewVariable] at h
    split_ifs at h with hmem
    swap
    · exact absurd h hmem
    intro k hk
    cases k with
    | zero => exact hmem
    | succ k =>
      have := ih h k (Nat.le_of_succ_le_succ hk)
      rwa [Nat.add_right_comm, Nat.add_assoc] at this

/-- The new name is new. -/
theorem makeNewVariable_not_mem (base : String) (ids : List String) (num : ℕ) :
    makeNewVariable base ids ids.length num ∉ ids := by
  intro h
  have hall := mem_of_makeNewVariable_mem h
  have hnodup : ((List.range (ids.length + 1)).map fun k => base ++ toString (num + k)).Nodup :=
    List.nodup_range.map fun k k' heq => by
      have := append_toString_injective base heq
      omega
  have hsub : ((List.range (ids.length + 1)).map fun k => base ++ toString (num + k)) ⊆ ids := by
    intro id hid
    obtain ⟨k, hk, rfl⟩ := List.mem_map.1 hid
    exact hall k (Nat.le_of_lt_succ (List.mem_range.1 hk))
  have hlength := (hnodup.subperm hsub).length_le
  rw [List.length_map, List.length_range] at hlength
  omega

/-! ### The bindings of a group -/

section Group

variable (Q : Checker T)

/-- `add-tcc-binding` on one binding after another. -/
def groupSubsts (remConditions : List (Condition T)) : List (Binding T) → (bindings : List (Binding T)) →
    Alist T → ℕ → Alist T × ℕ
  | [], _, substs, next => (substs, next)
  | bd :: cbindings, bindings, substs, next =>
    let r := addTccBinding Q bd bindings remConditions substs next
    groupSubsts remConditions cbindings (bd :: bindings) r.1 r.2

/-- What a binding becomes. -/
def Alist.binding (substs : Alist T) (bd : Binding T) : Binding T := (substs.assq bd.uid).getD bd

theorem addTccBindings_eq (expr : Formula T) (cbindings : List (Binding T))
    (remConditions : List (Condition T)) (substs : Alist T) (antes : List (Formula T))
    (bindings : List (Binding T)) (next : ℕ) :
    addTccBindings Q expr cbindings remConditions substs antes bindings next =
      (tccForall Q expr (groupSubsts Q remConditions cbindings bindings substs next).1 antes
        (cbindings.reverse ++ bindings)).map fun nexpr =>
          (nexpr, groupSubsts Q remConditions cbindings bindings substs next) := by
  induction cbindings generalizing substs bindings next with
  | nil => rfl
  | cons bd cbindings ih =>
    rw [addTccBindings, ih, groupSubsts, List.reverse_cons, List.append_assoc]
    rfl

end Group

/-- What is known of the substitutions in a group: those of other groups, and new bindings for some
of those that are done. -/
structure Renames (stale : Alist T) (N : ℕ) (done : Set ℕ) (substs : Alist T) (next : ℕ) : Prop where
  keys : (substs.map fun entry => entry.1.uid).Nodup
  entries : ∀ entry ∈ substs,
    entry ∈ stale ∨ entry.1.uid ∈ done ∧ N ≤ entry.2.uid ∧ entry.2.uid < next
  le : N ≤ next

/-- The variables that may come up. -/
def Relevant (stale : Alist T) (N : ℕ) : Set ℕ := { u | u < N ∧ ∀ entry ∈ stale, entry.1.uid ≠ u }

section Step

variable {Q : Checker T} {stale : Alist T} {N : ℕ} {done : Set ℕ} {substs : Alist T} {next : ℕ}

theorem Renames.rename_or (h : Renames stale N done substs next) {u : ℕ} (hu : u ∈ Relevant stale N) :
    substs.rename u = u ∨ N ≤ substs.rename u ∧ substs.rename u < next := by
  rcases substs.rename_cases u with ⟨heq, -⟩ | ⟨entry, hentry, hkey, heq⟩
  · exact .inl heq
  · rcases h.entries entry hentry with hstale | ⟨-, hle, hlt⟩
    · exact absurd hkey (hu.2 entry hstale)
    · exact .inr (heq ▸ ⟨hle, hlt⟩)

theorem Renames.rename_lt (h : Renames stale N done substs next) {u : ℕ}
    (hu : u ∈ Relevant stale N) : substs.rename u < next := by
  rcases h.rename_or hu with heq | ⟨-, hlt⟩
  · rw [heq]
    exact lt_of_lt_of_le hu.1 h.le
  · exact hlt

/-- The substitutions are of use for what has no variable of the group bound. -/
theorem Renames.fits (h : Renames stale N done substs next) {F B : Set ℕ}
    (hF : F ⊆ Relevant stale N) (hdone : ∀ u ∈ done, u ∉ B) (hB : ∀ u ∈ B, u < N) :
    substs.Fits F B := by
  refine ⟨h.keys, fun entry hentry hkey => ?_⟩
  rcases h.entries entry hentry with hstale | ⟨hmem, hle, -⟩
  · exact absurd rfl ((hF hkey).2 entry hstale)
  · exact ⟨hdone _ hmem, fun hb => absurd (hB _ hb) (Nat.not_lt.2 hle)⟩

theorem Alist.assq_cons_of_ne {entry : Binding T × Binding T} {u : ℕ} (h : entry.1.uid ≠ u) :
    assq u (entry :: substs) = substs.assq u := by
  rw [assq, List.find?_cons]
  simp only [h, decide_false]
  rfl

theorem Alist.assq_cons_self (entry : Binding T × Binding T) :
    assq entry.1.uid (entry :: substs) = some entry.2 := by
  rw [assq, List.find?_cons]
  simp

/-- What `add-tcc-binding` does to a binding. -/
structure Renamed (Q : Checker T) (substs : Alist T) (next : ℕ) (bd : Binding T) (r : Alist T × ℕ)
    (nbd : Binding T) : Prop where
  binding : (r.1.binding bd).uid = nbd.uid
  other : ∀ u, u ≠ bd.uid → r.1.assq u = substs.assq u
  uid : nbd.uid = bd.uid ∨ nbd.uid = next ∧ r.2 = next + 1
  le : next ≤ r.2
  ty : ∀ (M : Model Q) env, M.ty nbd.type env = M.ty bd.type (env ∘ substs.rename)
  frees : ∀ u ∈ T.tyFrees nbd.type, ∃ w ∈ T.tyFrees bd.type, u = substs.rename w
  bound : T.tyBound nbd.type ⊆ T.tyBound bd.type
  known : ∀ globals, substs.Spares globals → Known globals (T.tyFreevars bd.type) →
    Known globals (T.tyFreevars nbd.type)
  entries : r.1 = substs ∨ r.1 = (bd, nbd) :: substs ∧ nbd.uid = next

theorem tccBindingType_spec {t : T.Ty} (hfits : substs.Fits (T.tyFrees t) (T.tyBound t)) :
    (∀ (M : Model Q) env, M.ty (tccBindingType Q t substs) env = M.ty t (env ∘ substs.rename)) ∧
      (∀ u ∈ T.tyFrees (tccBindingType Q t substs), ∃ w ∈ T.tyFrees t, u = substs.rename w) ∧
        T.tyBound (tccBindingType Q t substs) ⊆ T.tyBound t := by
  have hptype : (∀ M : Model Q, M.ty ((Q.raiseActuals t).getD t) = M.ty t) ∧
      T.tyFrees ((Q.raiseActuals t).getD t) = T.tyFrees t ∧
        T.tyBound ((Q.raiseActuals t).getD t) ⊆ T.tyBound t := by
    cases hraised : Q.raiseActuals t with
    | none => exact ⟨fun M => rfl, rfl, subset_rfl⟩
    | some t' =>
      exact ⟨fun M => M.ty_raiseActuals t t' hraised, Q.raiseActuals_frees t t' hraised,
        Q.raiseActuals_bound t t' hraised⟩
  obtain ⟨hty, hfrees, hbound⟩ := hptype
  have hfits' : substs.Fits (T.tyFrees ((Q.raiseActuals t).getD t))
      (T.tyBound ((Q.raiseActuals t).getD t)) := by
    rw [hfrees]
    exact ⟨hfits.keys, fun entry hentry hkey => ⟨fun hb => (hfits.apart entry hentry hkey).1 (hbound hb),
      fun hb => (hfits.apart entry hentry hkey).2 (hbound hb)⟩⟩
  rw [tccBindingType]
  split_ifs with hdep
  · refine ⟨fun M env => ?_, fun u hu => ?_, tyBound_substitType.trans hbound⟩
    · rw [ty_substitType hfits', hty]
    · rw [← hfrees]
      exact tyFrees_substitType hfits' u hu
  · have hsame : ∀ u ∈ T.tyFrees t, substs.rename u = u := fun u hu => tyFreevars_any_assq hdep hu
    refine ⟨fun M env => ?_, fun u hu => ?_, hbound⟩
    · rw [hty]
      exact M.loc.ty t _ _ fun u hu => by rw [Function.comp_apply, hsame u hu]
    · rw [hfrees] at hu
      exact ⟨u, hu, (hsame u hu).symm⟩

theorem known_tccBindingType {globals : List (Binding T)} (h : substs.Spares globals) {t : T.Ty}
    (ht : Known globals (T.tyFreevars t)) :
    Known globals (T.tyFreevars (tccBindingType Q t substs)) := by
  have hptype : Known globals (T.tyFreevars ((Q.raiseActuals t).getD t)) := by
    cases hraised : Q.raiseActuals t with
    | none => exact ht
    | some t' => exact Q.raiseActuals_known globals t t' hraised ht
  rw [tccBindingType]
  split_ifs
  · exact known_substitType h hptype
  · exact hptype

theorem tccBindingId_spec (bd : Binding T) (bindings : List (Binding T))
    (remConditions : List (Condition T)) (substs : Alist T) :
    tccBindingId Q bd bindings remConditions substs ∉ bindings.map Decl.id ∧
      ∀ entry ∈ substs, entry.2.id ≠ tccBindingId Q bd bindings remConditions substs := by
  rw [tccBindingId]
  split_ifs with hduped
  · dsimp only
    generalize hids : (Q.boundVariables.map Decl.id ++ _ : List String) = ids
    have hnot := makeNewVariable_not_mem bd.id ids 1
    constructor
    · intro hmem
      obtain ⟨b, hb, heq⟩ := List.mem_map.1 hmem
      refine hnot (heq ▸ hids ▸ List.mem_append_right _ (List.mem_append_left _ ?_))
      exact List.mem_flatMap.2 ⟨b, hb, List.mem_cons_self⟩
    · intro entry hentry heq
      refine hnot (heq ▸ hids ▸ List.mem_append_right _ (List.mem_append_right _ ?_))
      exact List.mem_flatMap.2 ⟨entry, hentry, List.mem_append_right _ List.mem_cons_self⟩
  · rw [isDuped, Bool.not_eq_true, Bool.or_eq_false_iff, Bool.or_eq_false_iff, List.any_eq_false,
      List.any_eq_false, List.any_eq_false] at hduped
    exact ⟨by simpa using hduped.1.2, by simpa using hduped.2⟩

theorem addTccBinding_spec (h : Renames stale N done substs next) {bd : Binding T}
    (hbd : bd.uid ∈ Relevant stale N) (hnew : bd.uid ∉ done)
    (hfrees : T.tyFrees bd.type ⊆ Relevant stale N) (hdone : ∀ u ∈ done, u ∉ T.tyBound bd.type)
    (hbound : ∀ u ∈ T.tyBound bd.type, u < N) (bindings : List (Binding T))
    (remConditions : List (Condition T)) :
    ∃ nbd, (addTccBinding Q bd bindings remConditions substs next).1.binding bd = nbd ∧
      Renamed Q substs next bd (addTccBinding Q bd bindings remConditions substs next) nbd ∧
      Renames stale N (insert bd.uid done)
        (addTccBinding Q bd bindings remConditions substs next).1
        (addTccBinding Q bd bindings remConditions substs next).2 := by
  have hkey : ∀ entry ∈ substs, entry.1.uid ≠ bd.uid := by
    intro entry hentry heq
    rcases h.entries entry hentry with hstale | ⟨hmem, -⟩
    · exact hbd.2 entry hstale heq
    · exact hnew (heq ▸ hmem)
  have hfits : substs.Fits (T.tyFrees bd.type) (T.tyBound bd.type) := h.fits hfrees hdone hbound
  obtain ⟨hty, htyFrees, htyBound⟩ := tccBindingType_spec (Q := Q) hfits
  have hknown : ∀ globals, substs.Spares globals → Known globals (T.tyFreevars bd.type) →
      Known globals (T.tyFreevars (tccBindingType Q bd.type substs)) :=
    fun _ hspares => known_tccBindingType hspares
  rw [addTccBinding]
  by_cases hchange : (bd.kind = .untypedBindDecl || (Q.raiseActuals bd.type).isSome ||
      dependsOn bd.type substs || isDuped bd bindings remConditions substs) = true
  · rw [if_pos hchange]
    have hbinding : ∀ nbd, Alist.binding ((bd, nbd) :: substs) bd = nbd := fun nbd =>
      congrArg (fun d => Option.getD d bd) (Alist.assq_cons_self (bd, nbd))
    refine ⟨_, hbinding _, ⟨congrArg Decl.uid (hbinding _),
      fun u hu => Alist.assq_cons_of_ne (Ne.symm hu), .inr ⟨rfl, rfl⟩, Nat.le_succ next, hty, htyFrees,
      htyBound, hknown, .inr ⟨rfl, rfl⟩⟩, ?_, ?_, Nat.le_succ_of_le h.le⟩
    · refine List.nodup_cons.2 ?_
      refine ⟨fun hmem => ?_, h.keys⟩
      obtain ⟨entry, hentry, heq⟩ := List.mem_map.1 hmem
      exact hkey entry hentry heq
    · intro entry hentry
      rcases List.mem_cons.1 hentry with rfl | hentry
      · exact .inr ⟨.inl rfl, h.le, Nat.lt_succ_self next⟩
      · exact (h.entries entry hentry).imp_right fun he => ⟨.inr he.1, he.2.1, Nat.lt_succ_of_lt he.2.2⟩
  · rw [if_neg hchange]
    simp only [Bool.not_eq_true, Bool.or_eq_false_iff] at hchange
    obtain ⟨⟨⟨-, hraised⟩, hdep⟩, hduped⟩ := hchange
    have hnone : Q.raiseActuals bd.type = none := Option.not_isSome_iff_eq_none.1 (by simp [hraised])
    rw [tccBindingType, hdep, hnone] at hty htyFrees htyBound
    have hbinding : substs.binding bd = bd := by
      rw [Alist.binding, Alist.assq_eq_none.2 hkey]
      rfl
    refine ⟨bd, hbinding, ⟨congrArg Decl.uid hbinding, fun u _ => rfl, .inl rfl, le_rfl, hty, htyFrees,
      htyBound, fun _ _ => id, .inl rfl⟩, h.keys, ?_, h.le⟩
    · exact fun entry hentry => (h.entries entry hentry).imp_right fun he => ⟨.inr he.1, he.2⟩

theorem Renamed.rename {bd nbd : Binding T} {r : Alist T × ℕ} (h : Renamed Q substs next bd r nbd)
    (u : ℕ) : r.1.rename u = if u = bd.uid then nbd.uid else substs.rename u := by
  split_ifs with hu
  · rw [hu, ← h.binding, Alist.rename, Alist.binding]
    cases r.1.assq bd.uid with
    | none => rfl
    | some d => rfl
  · rw [Alist.rename, Alist.rename, h.other u hu]

/-- The bindings of a group, renamed one after another. -/
inductive GroupRun (Q : Checker T) (stale : Alist T) (N : ℕ) : (done : Set ℕ) → Alist T → ℕ →
    List (Binding T) → List (Binding T) → Alist T × ℕ → Prop
  | nil {done : Set ℕ} {substs : Alist T} {next : ℕ} (h : Renames stale N done substs next) :
    GroupRun Q stale N done substs next [] [] (substs, next)
  | cons {done : Set ℕ} {substs : Alist T} {next : ℕ} {bd nbd r cbindings nbindings r'}
    (h : Renames stale N done substs next) (relevant : bd.uid ∈ Relevant stale N)
    (frees : T.tyFrees bd.type ⊆ Relevant stale N) (renamed : Renamed Q substs next bd r nbd)
    (rest : GroupRun Q stale N (insert bd.uid done) r.1 r.2 cbindings nbindings r') :
    GroupRun Q stale N done substs next (bd :: cbindings) (nbd :: nbindings) r'

theorem addTccBinding_ids (next : ℕ) {bd : Binding T} (hkey : ∀ entry ∈ substs, entry.1.uid ≠ bd.uid)
    (bindings : List (Binding T)) (remConditions : List (Condition T)) {nbd : Binding T}
    (hnbd : (addTccBinding Q bd bindings remConditions substs next).1.binding bd = nbd) :
    (nbd.id ∉ bindings.map Decl.id ∧ ∀ entry ∈ substs, entry.2.id ≠ nbd.id) ∧
      (nbd = bd ∨ (bd, nbd) ∈ (addTccBinding Q bd bindings remConditions substs next).1) ∧
        substs ⊆ (addTccBinding Q bd bindings remConditions substs next).1 ∧
          ∀ entry ∈ (addTccBinding Q bd bindings remConditions substs next).1,
            entry ∈ substs ∨ entry.1 = bd := by
  have hid := tccBindingId_spec (Q := Q) bd bindings remConditions substs
  rw [addTccBinding] at hnbd ⊢
  by_cases hchange : (bd.kind = .untypedBindDecl || (Q.raiseActuals bd.type).isSome ||
      dependsOn bd.type substs || isDuped bd bindings remConditions substs) = true
  · rw [if_pos hchange] at hnbd ⊢
    dsimp only at hnbd ⊢
    rw [Alist.binding, Alist.assq_cons_self (bd, _)] at hnbd
    subst hnbd
    refine ⟨hid, .inr List.mem_cons_self, List.subset_cons_self _ _, fun entry hentry => ?_⟩
    exact (List.mem_cons.1 hentry).symm.imp_right (congrArg Prod.fst)
  · rw [if_neg hchange] at hnbd ⊢
    rw [Alist.binding, Alist.assq_eq_none.2 hkey] at hnbd
    subst hnbd
    simp only [Bool.not_eq_true, Bool.or_eq_false_iff] at hchange
    rw [tccBindingId, hchange.2] at hid
    exact ⟨hid, .inl rfl, List.Subset.refl _, fun entry hentry => .inl hentry⟩

/-- What a group needs. -/
structure GroupOk (stale : Alist T) (N : ℕ) (done : Set ℕ) (cbindings : List (Binding T)) : Prop where
  nodup : (cbindings.map Decl.uid).Nodup
  relevant : ∀ b ∈ cbindings, b.uid ∈ Relevant stale N ∧ b.uid ∉ done ∧
    T.tyFrees b.type ⊆ Relevant stale N
  bound : ∀ b ∈ cbindings, ∀ u ∈ T.tyBound b.type, u < N ∧ u ∉ done ∧ ∀ b' ∈ cbindings, b'.uid ≠ u

theorem GroupOk.tail {bd : Binding T} {cbindings : List (Binding T)}
    (h : GroupOk stale N done (bd :: cbindings)) : GroupOk stale N (insert bd.uid done) cbindings := by
  obtain ⟨hnot, hnodup⟩ := List.nodup_cons.1 h.nodup
  refine ⟨hnodup, fun b hb => ?_, fun b hb u hu => ?_⟩
  · obtain ⟨h₁, h₂, h₃⟩ := h.relevant b (List.mem_cons_of_mem _ hb)
    refine ⟨h₁, fun hmem => hmem.elim (fun heq => ?_) h₂, h₃⟩
    exact hnot (List.mem_map.2 ⟨b, hb, heq⟩)
  · obtain ⟨h₁, h₂, h₃⟩ := h.bound b (List.mem_cons_of_mem _ hb) u hu
    rw [List.forall_mem_cons] at h₃
    exact ⟨h₁, fun hmem => hmem.elim (fun heq => h₃.1 heq.symm) h₂, h₃.2⟩

theorem groupSubsts_assq {cbindings : List (Binding T)} {bindings : List (Binding T)}
    {remConditions : List (Condition T)} {u : ℕ} (hu : ∀ b ∈ cbindings, b.uid ≠ u) :
    (groupSubsts Q remConditions cbindings bindings substs next).1.assq u = substs.assq u := by
  induction cbindings generalizing bindings substs next with
  | nil => rfl
  | cons bd cbindings ih =>
    rw [List.forall_mem_cons] at hu
    rw [groupSubsts, ih hu.2, addTccBinding]
    split_ifs
    · exact Alist.assq_cons_of_ne hu.1
    · rfl

/-- The names of the renamed bindings are different. -/
theorem groupSubsts_ids (remConditions : List (Condition T)) (next : ℕ) {cbindings : List (Binding T)}
    (hnodup : (cbindings.map Decl.uid).Nodup)
    (hkeys : ∀ entry ∈ substs, ∀ b ∈ cbindings, entry.1.uid ≠ b.uid) (bindings : List (Binding T))
    {r : Alist T} (hr : (groupSubsts Q remConditions cbindings bindings substs next).1 = r) :
    ((cbindings.map r.binding).map Decl.id).Nodup ∧ ∀ nb ∈ cbindings.map r.binding,
      nb.id ∉ bindings.map Decl.id ∧ ∀ entry ∈ substs, entry.2.id ≠ nb.id := by
  induction cbindings generalizing bindings substs next with
  | nil => exact ⟨List.nodup_nil, by simp⟩
  | cons bd cbindings ih =>
    obtain ⟨hnot, hnodup⟩ := List.nodup_cons.1 hnodup
    have hne : ∀ b ∈ cbindings, b.uid ≠ bd.uid := fun b hb heq =>
      hnot (List.mem_map.2 ⟨b, hb, heq⟩)
    have hhead : r.binding bd =
        (addTccBinding Q bd bindings remConditions substs next).1.binding bd := by
      rw [← hr, groupSubsts, Alist.binding, groupSubsts_assq hne]
      rfl
    obtain ⟨hid, hkept, hsub, hentries⟩ := addTccBinding_ids (Q := Q) next
      (fun entry hentry => hkeys entry hentry bd List.mem_cons_self) bindings remConditions rfl
    obtain ⟨hrestNodup, hrest⟩ := ih _ hnodup (fun entry hentry b hb => by
      rcases hentries entry hentry with hmem | heq
      · exact hkeys entry hmem b (List.mem_cons_of_mem _ hb)
      · rw [heq]
        exact (hne b hb).symm) (bd :: bindings) hr
    rw [List.map_cons, List.map_cons, hhead]
    refine ⟨List.nodup_cons.2 ⟨fun hmem => ?_, hrestNodup⟩, List.forall_mem_cons.2 ⟨hid, ?_⟩⟩
    · obtain ⟨nb, hnb, heq⟩ := List.mem_map.1 hmem
      rcases hkept with hkept | hkept
      · rw [hkept] at heq
        exact (hrest nb hnb).1 (heq ▸ List.mem_cons_self)
      · exact (hrest nb hnb).2 _ hkept heq.symm
    · exact fun nb hnb => ⟨fun hmem => (hrest nb hnb).1 (List.mem_cons_of_mem _ hmem),
        fun entry hentry => (hrest nb hnb).2 entry (hsub hentry)⟩

theorem groupRun (remConditions : List (Condition T)) {cbindings : List (Binding T)}
    (hok : GroupOk stale N done cbindings) (h : Renames stale N done substs next)
    (bindings : List (Binding T)) :
    GroupRun Q stale N done substs next cbindings
      (cbindings.map (groupSubsts Q remConditions cbindings bindings substs next).1.binding)
      (groupSubsts Q remConditions cbindings bindings substs next) := by
  induction cbindings generalizing done bindings substs next with
  | nil => exact .nil h
  | cons bd cbindings ih =>
    obtain ⟨hrelevant, hnew, hfrees⟩ := hok.relevant bd List.mem_cons_self
    have hbound := hok.bound bd List.mem_cons_self
    obtain ⟨nbd, hnbd, hrenamed, hrenames⟩ := addTccBinding_spec (Q := Q) h hrelevant hnew hfrees
      (fun u hu hb => (hbound u hb).2.1 hu) (fun u hb => (hbound u hb).1) bindings remConditions
    have hne : ∀ b ∈ cbindings, b.uid ≠ bd.uid := fun b hb heq =>
      (List.nodup_cons.1 hok.nodup).1 (List.mem_map.2 ⟨b, hb, heq⟩)
    have hhead : (groupSubsts Q remConditions (bd :: cbindings) bindings substs next).1.binding bd =
        nbd := by
      rw [groupSubsts, Alist.binding, groupSubsts_assq hne]
      exact hnbd
    rw [List.map_cons, hhead]
    exact .cons h hrelevant hfrees hrenamed (ih hok.tail hrenames (bd :: bindings))

end Step

/-! ### What a group of bindings becomes -/

section Run

variable {Q : Checker T} {stale : Alist T} {N : ℕ} {done : Set ℕ} {substs : Alist T} {next : ℕ}
  {cbindings nbindings : List (Binding T)} {r : Alist T × ℕ}

theorem GroupRun.renames (h : GroupRun Q stale N done substs next cbindings nbindings r) :
    Renames stale N (done ∪ { u | ∃ b ∈ cbindings, b.uid = u }) r.1 r.2 ∧ next ≤ r.2 := by
  induction h with
  | nil h => exact ⟨⟨h.keys, fun entry hentry => (h.entries entry hentry).imp_right fun he =>
      ⟨.inl he.1, he.2⟩, h.le⟩, le_rfl⟩
  | @cons done substs next bd nbd r cbindings nbindings r' h _ _ renamed _ ih =>
    refine ⟨⟨ih.1.keys, fun entry hentry => (ih.1.entries entry hentry).imp_right ?_, ih.1.le⟩,
      renamed.le.trans ih.2⟩
    rintro ⟨(heq | hdone) | ⟨b, hb, heq⟩, he⟩
    · exact ⟨.inr ⟨bd, List.mem_cons_self, heq.symm⟩, he⟩
    · exact ⟨.inl hdone, he⟩
    · exact ⟨.inr ⟨b, List.mem_cons_of_mem _ hb, heq⟩, he⟩

/-- The new assignment gives a variable under its new number what the old one gives it. -/
def Agrees (stale : Alist T) (N : ℕ) (substs : Alist T) {V : Type} (env' env : ℕ → V) : Prop :=
  ∀ u ∈ Relevant stale N, env' (substs.rename u) = env u

theorem Agrees.step {V : Type} {env env' : ℕ → V} (hagrees : Agrees stale N substs env' env)
    (h : Renames stale N done substs next) {bd nbd : Binding T} {r : Alist T × ℕ}
    (hrelevant : bd.uid ∈ Relevant stale N) (renamed : Renamed Q substs next bd r nbd)
    (v : V) :
    Agrees stale N r.1 (Function.update env' nbd.uid v) (Function.update env bd.uid v) := by
  intro u hu
  rw [renamed.rename]
  split_ifs with heq
  · rw [heq, Function.update_self, Function.update_self]
  · rw [Function.update_of_ne heq, Function.update_of_ne, hagrees u hu]
    -- the new number is that of the binding, or no variable has it so far
    rcases renamed.uid with hsame | ⟨hfresh, -⟩
    · rw [hsame]
      rcases h.rename_or hu with hu' | ⟨hle, -⟩
      · rwa [hu']
      · intro hbd
        exact absurd hrelevant.1 (Nat.not_lt.2 (hbd ▸ hle))
    · rw [hfresh]
      exact Nat.ne_of_lt (h.rename_lt hu)

theorem Agrees.ty {M : Model Q} {env env' : ℕ → M.Val} (hagrees : Agrees stale N substs env' env)
    {bd nbd : Binding T} {r : Alist T × ℕ} (hfrees : T.tyFrees bd.type ⊆ Relevant stale N)
    (renamed : Renamed Q substs next bd r nbd) : M.ty nbd.type env' = M.ty bd.type env := by
  rw [renamed.ty]
  exact M.loc.ty bd.type _ _ fun u hu => hagrees u (hfrees hu)

/-- Values for the bindings are values for the renamed bindings. -/
theorem GroupRun.assigns (h : GroupRun Q stale N done substs next cbindings nbindings r)
    {M : Model Q} {env env' : ℕ → M.Val} (hagrees : Agrees stale N substs env' env) :
    (∀ e, M.Assigns cbindings env e →
      ∃ e', M.Assigns nbindings env' e' ∧ Agrees stale N r.1 e' e) ∧
    ∀ e', M.Assigns nbindings env' e' →
      ∃ e, M.Assigns cbindings env e ∧ Agrees stale N r.1 e' e := by
  induction h generalizing env env' with
  | nil h =>
    constructor
    · rintro e rfl
      exact ⟨env', rfl, hagrees⟩
    · rintro e' rfl
      exact ⟨env, rfl, hagrees⟩
  | cons h relevant frees renamed rest ih =>
    have hty := hagrees.ty frees renamed
    constructor
    · rintro e ⟨v, hv, he⟩
      obtain ⟨e', he', hagrees'⟩ := (ih (hagrees.step h relevant renamed v)).1 e he
      exact ⟨e', ⟨v, hty ▸ hv, he'⟩, hagrees'⟩
    · rintro e' ⟨v, hv, he'⟩
      obtain ⟨e, he, hagrees'⟩ := (ih (hagrees.step h relevant renamed v)).2 e' he'
      exact ⟨e, ⟨v, hty ▸ hv, he⟩, hagrees'⟩

theorem GroupRun.freesList (h : GroupRun Q stale N done substs next cbindings nbindings r)
    {S S' : Set ℕ} (hS : ∀ u ∈ S', ∃ w ∈ S, u = r.1.rename w) :
    ∀ u ∈ freesList nbindings S', ∃ w ∈ freesList cbindings S, u = substs.rename w := by
  induction h with
  | nil h => exact hS
  | cons h relevant frees renamed rest ih =>
    rintro u (hu | ⟨hu, hne⟩)
    · obtain ⟨w, hw, rfl⟩ := renamed.frees u hu
      exact ⟨w, .inl hw, rfl⟩
    · obtain ⟨w, hw, rfl⟩ := ih hS u hu
      rw [renamed.rename] at hne ⊢
      split_ifs at hne ⊢ with heq
      · exact absurd rfl hne
      · exact ⟨w, .inr ⟨hw, heq⟩, rfl⟩

theorem GroupRun.boundList (h : GroupRun Q stale N done substs next cbindings nbindings r)
    {S : Set ℕ} :
    ∀ u ∈ boundList nbindings S, u ∈ boundList cbindings S ∨ next ≤ u ∧ u < r.2 := by
  induction h with
  | nil h => exact fun u hu => .inl hu
  | cons h relevant frees renamed rest ih =>
    rintro u (hu | hu | hu)
    · rcases renamed.uid with hsame | ⟨hfresh, hnext⟩
      · exact .inl (.inl (hu.trans hsame))
      · have hu' : u = _ := hu.trans hfresh
        exact .inr ⟨hu'.ge, by have := rest.renames.2; omega⟩
    · exact .inl (.inr (.inl (renamed.bound hu)))
    · rcases ih u hu with hu | ⟨hle, hlt⟩
      · exact .inl (.inr (.inr hu))
      · exact .inr ⟨renamed.le.trans hle, hlt⟩

theorem GroupRun.uids (h : GroupRun Q stale N done substs next cbindings nbindings r) :
    ∀ nb ∈ nbindings, (∃ b ∈ cbindings, b.uid = nb.uid) ∨ next ≤ nb.uid := by
  induction h with
  | nil h => simp
  | @cons done substs next bd nbd r cbindings nbindings r' h _ _ renamed _ ih =>
    rw [List.forall_mem_cons]
    constructor
    · rcases renamed.uid with hsame | ⟨hfresh, -⟩
      · exact .inl ⟨bd, List.mem_cons_self, hsame.symm⟩
      · exact .inr hfresh.ge
    · intro nb hnb
      rcases ih nb hnb with ⟨b, hb, heq⟩ | hle
      · exact .inl ⟨b, List.mem_cons_of_mem _ hb, heq⟩
      · exact .inr (renamed.le.trans hle)

/-- The declarations outside are known in the types of the renamed bindings. -/
theorem GroupRun.known (h : GroupRun Q stale N done substs next cbindings nbindings r)
    {globals : List (Binding T)} (hspares : substs.Spares globals)
    (hbindings : ∀ b ∈ cbindings, Known globals (T.tyFreevars b.type) ∧
      ∀ g ∈ globals, b.uid ≠ g.uid ∧ b.uid ∉ T.tyFrees g.type)
    (hglobals : ∀ g ∈ globals, g.uid < N) :
    r.1.Spares globals ∧ ∀ nb ∈ nbindings, Known globals (T.tyFreevars nb.type) := by
  induction h with
  | nil h => exact ⟨hspares, by simp⟩
  | @cons done substs next bd nbd r cbindings nbindings r' h _ _ renamed _ ih =>
    rw [List.forall_mem_cons] at hbindings
    have hknown := renamed.known globals hspares hbindings.1.1
    have hstep : r.1.Spares globals := by
      rcases renamed.entries with heq | ⟨heq, hnew⟩
      · rwa [heq]
      · rw [heq]
        intro entry hentry
        rcases List.mem_cons.1 hentry with rfl | hentry
        · refine ⟨hknown, fun g hg => ⟨(hbindings.1.2 g hg).1, ?_, (hbindings.1.2 g hg).2⟩⟩
          exact fun heq => Nat.not_lt.2 h.le (hnew ▸ heq ▸ hglobals g hg)
        · exact hspares entry hentry
    rw [List.forall_mem_cons]
    exact ⟨(ih hstep hbindings.2).1, hknown, (ih hstep hbindings.2).2⟩

end Run

/-! ### Bindings that are left out -/

section Closure

variable {Q : Checker T} {M : Model Q}

/-- A binding is left out only if nothing depends on it and its type is not empty. -/
theorem dropped_of_not_mem {bindings : List (Binding T)} {body : Formula T} {bd : Binding T}
    (hbd : bd ∈ bindings) (hnot : bd ∉ getTccClosureBindings Q bindings body) :
    (∀ d ∈ body.freevars, d.uid ≠ bd.uid) ∧ (∀ b ∈ bindings, bd.uid ∉ T.tyFrees b.type) ∧
      Q.possiblyEmptyType bd.type = false := by
  rw [getTccClosureBindings] at hnot
  have hdrop : (memDecl bd (fvUnion body.freevars (bindings.flatMap fun b => T.tyFreevars b.type)) ||
      Q.possiblyEmptyType bd.type) = false := by
    by_contra hkeep
    exact hnot (List.mem_filter.2 ⟨hbd, Bool.not_eq_false _ ▸ hkeep⟩)
  obtain ⟨hmem, hempty⟩ := Bool.or_eq_false_iff.1 hdrop
  rw [Bool.eq_false_iff, Ne, memDecl_iff, mem_uids_fvUnion, not_or] at hmem
  refine ⟨fun d hd heq => hmem.1 ⟨d, hd, heq⟩, fun b hb hfree => ?_, hempty⟩
  obtain ⟨d, hd, heq⟩ := hfree
  exact hmem.2 ⟨d, List.mem_flatMap.2 ⟨b, hb, hd⟩, heq⟩

/-- Nothing depends on what `keep` leaves out. -/
def Needless (keep : Binding T → Bool) (S : Set ℕ) (bindings : List (Binding T)) : Prop :=
  ∀ b ∈ bindings, keep b = false → b.uid ∉ S ∧ ∀ b' ∈ bindings, b.uid ∉ T.tyFrees b'.type

theorem Needless.tail {keep : Binding T → Bool} {S : Set ℕ} {b : Binding T}
    {bs : List (Binding T)} (h : Needless keep S (b :: bs)) : Needless keep S bs :=
  fun b' hb' hkeep => ⟨(h b' (List.mem_cons_of_mem _ hb') hkeep).1,
    fun b'' hb'' => (h b' (List.mem_cons_of_mem _ hb') hkeep).2 b'' (List.mem_cons_of_mem _ hb'')⟩

theorem Needless.not_mem {keep : Binding T → Bool} {S : Set ℕ} {b : Binding T}
    {bs : List (Binding T)} (h : Needless keep S (b :: bs)) (hkeep : keep b = false) :
    b.uid ∉ freesList (bs.filter keep) S := by
  obtain ⟨hS, htypes⟩ := h b List.mem_cons_self hkeep
  intro hu
  rcases mem_freesList_cases hu with ⟨b', hb', hfree⟩ | hmem
  · exact htypes b' (List.mem_cons_of_mem _ (List.mem_filter.1 hb').1) hfree
  · exact hS hmem

theorem freesList_filter {keep : Binding T → Bool} {S : Set ℕ} {bindings : List (Binding T)}
    (h : Needless keep S bindings) : freesList (bindings.filter keep) S ⊆ freesList bindings S := by
  induction bindings with
  | nil => exact subset_rfl
  | cons b bs ih =>
    rw [List.filter_cons]
    split_ifs with hkeep
    · exact Set.union_subset_union_right _ fun u hu => ⟨ih h.tail hu.1, hu.2⟩
    · intro u hu
      refine .inr ⟨ih h.tail hu, ?_⟩
      rintro rfl
      exact h.not_mem (by simpa using hkeep) hu

theorem boundList_filter (keep : Binding T → Bool) (S : Set ℕ) (bindings : List (Binding T)) :
    boundList (bindings.filter keep) S ⊆ boundList bindings S := by
  intro u hu
  rw [mem_boundList] at hu ⊢
  exact hu.imp_left fun ⟨b, hb, hub⟩ => ⟨b, (List.mem_filter.1 hb).1, hub⟩

theorem forAll_filter (hM : M.Local) {keep : Binding T → Bool} {S : Set ℕ}
    {bindings : List (Binding T)} (h : Needless keep S bindings)
    (hempty : ∀ b ∈ bindings, keep b = false → ∀ env, (M.ty b.type env).Nonempty)
    {P : (ℕ → M.Val) → Prop} (hP : ∀ env env', (∀ u ∈ S, env u = env' u) → (P env ↔ P env'))
    (env : ℕ → M.Val) : M.ForAll (bindings.filter keep) P env ↔ M.ForAll bindings P env := by
  induction bindings generalizing env with
  | nil => rfl
  | cons b bs ih =>
    have ih := ih h.tail fun b' hb' => hempty b' (List.mem_cons_of_mem _ hb')
    rw [List.filter_cons, Interpretation.ForAll]
    split_ifs with hkeep
    · exact forall₂_congr fun v _ => ih _
    · have hdrop : keep b = false := by simpa using hkeep
      have hsame : ∀ v, M.ForAll (bs.filter keep) P (Function.update env b.uid v) ↔
          M.ForAll (bs.filter keep) P env := fun v => forAll_congr hM hP _ _ _ fun u hu =>
        Function.update_of_ne (fun heq : u = b.uid => h.not_mem hdrop (heq ▸ hu)) v env
      simp only [← ih, hsame]
      obtain ⟨v, hv⟩ := hempty b List.mem_cons_self hdrop env
      exact ⟨fun hall _ _ => hall, fun hall => hall v hv⟩

/-- What `get-tcc-closure-bindings` leaves out is not needed. -/
theorem closure_needless (bindings : List (Binding T)) (body : Formula T)
    (hbound : ∀ b ∈ bindings, b.uid ∉ body.bound) :
    ∃ keep, getTccClosureBindings Q bindings body = bindings.filter keep ∧
      Needless keep body.frees bindings ∧
        ∀ b ∈ bindings, keep b = false → Q.possiblyEmptyType b.type = false := by
  refine ⟨_, rfl, fun b hb hkeep => ?_, fun b hb hkeep => (Bool.or_eq_false_iff.1 hkeep).2⟩
  have hnot : b ∉ getTccClosureBindings Q bindings body := fun hmem =>
    Bool.false_ne_true (hkeep.symm.trans (List.mem_filter.1 hmem).2)
  obtain ⟨hbody, htypes, -⟩ := dropped_of_not_mem hb hnot
  refine ⟨fun hfree => ?_, htypes⟩
  obtain ⟨d, hd, heq⟩ := (Formula.mem_freevars (hbound b hb)).2 hfree
  exact hbody d hd heq

end Closure

/-! ### What a group becomes -/

section Implication

variable {Q : Checker T} {M : Model Q} {antes : List (Formula T)} {expr : Formula T}

theorem holds_tccImplication {env : ℕ → M.Val} :
    M.Holds (tccImplication Q antes expr) env ↔ ((∀ f ∈ antes, M.Holds f env) → M.Holds expr env) := by
  rw [tccImplication]
  split_ifs with hempty
  · simp [List.isEmpty_iff.1 hempty]
  · rw [holds_makeImplication, holds_makeConjunctionStar]

theorem meaningful_tccImplication {env : ℕ → M.Val} (hantes : M.MeaningfulAnd antes env)
    (hexpr : (∀ f ∈ antes, M.Holds f env) → M.Meaningful expr env) :
    M.Meaningful (tccImplication Q antes expr) env := by
  rw [tccImplication]
  split_ifs with hempty
  · exact hexpr (by simp [List.isEmpty_iff.1 hempty])
  · refine meaningful_makeImplication ⟨meaningful_makeConjunctionStar hantes, fun hall => ?_⟩
    exact hexpr (holds_makeConjunctionStar.1 hall)

theorem PartWise.tccImplication {P : Formula T → Prop} (hP : PartWise P) (hantes : ∀ f ∈ antes, P f)
    (hexpr : P expr) : P (tccImplication Q antes expr) := by
  rw [TccGen.tccImplication]
  split_ifs
  · exact hexpr
  · exact hP.makeImplication (hP.makeConjunctionStar hantes) hexpr

end Implication

section Result

variable {Q : Checker T} {stale : Alist T} {next : ℕ}

/-- What a group of bindings makes of a formula. -/
structure GroupResult (Q : Checker T) (stale : Alist T) (next : ℕ) (cbindings : List (Binding T))
    (ex nexpr : Formula T) (substs : Alist T) (next' : ℕ) : Prop where
  holds : ∀ (M : Model Q) env, M.Holds nexpr env ↔ M.ForAll cbindings (M.Holds ex) env
  meaningful : ∀ (M : Model Q) env, M.ForAll cbindings (M.Meaningful ex) env → M.Meaningful nexpr env
  frees : nexpr.frees ⊆ freesList cbindings ex.frees
  bound : ∀ u ∈ nexpr.bound, u ∈ boundList cbindings ex.bound ∨ next ≤ u ∧ u < next'
  known : ∀ globals, stale.Spares globals → (∀ g ∈ globals, g.uid < next) →
    (∀ b ∈ cbindings, Known globals (T.tyFreevars b.type) ∧
      ∀ g ∈ globals, b.uid ≠ g.uid ∧ b.uid ∉ T.tyFrees g.type) →
        ex.Known globals → nexpr.Known globals ∧ substs.Spares globals

theorem addTccBindings_spec (remConditions : List (Condition T)) {cbindings : List (Binding T)}
    {expr : Formula T} {antes : List (Formula T)}
    (hkeys : (stale.map fun entry => entry.1.uid).Nodup)
    (hok : GroupOk stale next ∅ cbindings)
    (hfrees : (tccImplication Q antes expr).frees ⊆ Relevant stale next)
    (hbound : ∀ u ∈ (tccImplication Q antes expr).bound, u < next ∧ ∀ b ∈ cbindings, b.uid ≠ u) :
    ∃ nexpr r, addTccBindings Q expr cbindings remConditions stale antes [] next = some (nexpr, r) ∧
      Renames stale next { u | ∃ b ∈ cbindings, b.uid = u } r.1 r.2 ∧ next ≤ r.2 ∧
        GroupResult Q stale next cbindings (tccImplication Q antes expr) nexpr r.1 r.2 := by
  have hstart : Renames stale next ∅ stale next := ⟨hkeys, fun entry hentry => .inl hentry, le_rfl⟩
  have hrun := groupRun (Q := Q) remConditions hok hstart []
  have hids := (groupSubsts_ids (Q := Q) remConditions next hok.nodup
    (fun entry hentry b hb => (hok.relevant b hb).1.2 entry hentry) [] rfl).1
  generalize hr : groupSubsts Q remConditions cbindings [] stale next = r at hrun hids
  generalize htcc : tccImplication Q antes expr = ex at hfrees hbound
  obtain ⟨hrenames, hle⟩ := hrun.renames
  rw [Set.empty_union] at hrenames
  have hfits : r.1.Fits ex.frees ex.bound := hrenames.fits hfrees
    (by rintro u ⟨b, hb, rfl⟩ hmem; exact (hbound _ hmem).2 b hb rfl) fun u hu => (hbound u hu).1
  have hbody : (substit Q false ex r.1).bound ⊆ ex.bound := bound_substit false
  have hbodyFrees : ∀ u ∈ (substit Q false ex r.1).frees, ∃ w ∈ ex.frees, u = r.1.rename w :=
    frees_substit false hfits
  obtain ⟨keep, hclosure, hneedless, hempty⟩ := closure_needless (Q := Q)
    (cbindings.map r.1.binding) (substit Q false ex r.1) fun nb hnb hmem => by
      rcases hrun.uids nb hnb with ⟨b, hb, heq⟩ | hfresh
      · exact (hbound _ (hbody hmem)).2 b hb heq
      · exact absurd (hbound _ (hbody hmem)).1 (Nat.not_lt.2 hfresh)
  let nbindings := (cbindings.map r.1.binding).filter keep
  have htccForall : tccForall Q expr r.1 antes (cbindings.reverse ++ []) =
      some (if nbindings.isEmpty then substit Q false ex r.1
        else .forAll nbindings (substit Q false ex r.1)) := by
    have hall : getTccClosureBindings Q ((cbindings.reverse ++ []).reverse.map
        fun bd : Binding T => (r.1.assq bd.uid).getD bd) (substit Q false ex r.1) = nbindings := by
      rw [List.append_nil, List.reverse_reverse]
      exact hclosure
    rw [tccForall, htcc, hall]
    exact if_pos (hids.sublist (List.filter_sublist.map _))
  refine ⟨_, r, by rw [addTccBindings_eq, hr, htccForall]; rfl, hrenames, hle, ?_⟩
  have hagrees : ∀ (M : Model Q) (env : ℕ → M.Val), Agrees stale next stale env env :=
    fun M env u hu => by rw [Alist.rename_of_forall_ne hu.2]
  -- a formula that depends on the body means the same under the bindings that are left
  have hforAll : ∀ (M : Model Q) (P : (ℕ → M.Val) → Prop),
      (∀ env env', (∀ u ∈ (substit Q false ex r.1).frees, env u = env' u) → (P env ↔ P env')) →
        ∀ env, M.ForAll nbindings P env ↔ M.ForAll (cbindings.map r.1.binding) P env :=
    fun M P hP => forAll_filter M.loc hneedless (fun b hb hkeep => M.nonempty _ (hempty b hb hkeep)) hP
  refine ⟨fun M env => ?_, fun M env hmeaningful => ?_, ?_, ?_, fun globals hspares hglobals hbs hex => ?_⟩
  · have hexpr : M.Holds (if nbindings.isEmpty then substit Q false ex r.1
        else .forAll nbindings (substit Q false ex r.1)) env ↔
          M.ForAll nbindings (M.Holds (substit Q false ex r.1)) env := by
      split_ifs with hnil
      · rw [List.isEmpty_iff.1 hnil]
        rfl
      · rfl
    rw [hexpr, hforAll M _ (holds_congr M.loc _), M.forAll_iff, M.forAll_iff]
    have hsame : ∀ e e' : ℕ → M.Val, Agrees stale next r.1 e' e →
        (M.Holds (substit Q false ex r.1) e' ↔ M.Holds ex e) := fun e e' he => by
      rw [holds_substit false hfits]
      exact holds_congr M.loc _ _ _ fun u hu => he u (hfrees hu)
    obtain ⟨hforth, hback⟩ := hrun.assigns (hagrees M env)
    constructor
    · intro hall e he
      obtain ⟨e', he', hagree⟩ := hforth e he
      exact (hsame e e' hagree).1 (hall e' he')
    · intro hall e' he'
      obtain ⟨e, he, hagree⟩ := hback e' he'
      exact (hsame e e' hagree).2 (hall e he)
  · have hexpr : M.ForAll nbindings (M.Meaningful (substit Q false ex r.1)) env := by
      rw [hforAll M _ (meaningful_congr M.loc _), M.forAll_iff]
      intro e' he'
      obtain ⟨e, he, hagree⟩ := (hrun.assigns (hagrees M env)).2 e' he'
      refine meaningful_substit false hfits e' ((meaningful_congr M.loc _ _ _ fun u hu => ?_).1
        (M.forAll_iff.1 hmeaningful e he))
      exact (hagree u (hfrees hu)).symm
    split_ifs with hnil
    · rw [List.isEmpty_iff.1 hnil] at hexpr
      exact hexpr
    · exact hexpr
  · have hsub : freesList nbindings (substit Q false ex r.1).frees ⊆ freesList cbindings ex.frees := by
      intro u hu
      obtain ⟨w, hw, rfl⟩ := hrun.freesList hbodyFrees u (freesList_filter hneedless hu)
      have hrelevant : w ∈ Relevant stale next := by
        rcases mem_freesList_cases hw with ⟨b, hb, hfree⟩ | hfree
        · exact (hok.relevant b hb).2.2 hfree
        · exact hfrees hfree
      rwa [Alist.rename_of_forall_ne hrelevant.2]
    split_ifs with hnil
    · rw [List.isEmpty_iff.1 hnil] at hsub
      exact hsub
    · exact hsub
  · have hsub : ∀ u ∈ boundList nbindings (substit Q false ex r.1).bound,
        u ∈ boundList cbindings ex.bound ∨ next ≤ u ∧ u < r.2 := by
      intro u hu
      refine (hrun.boundList u (boundList_filter keep _ _ hu)).imp_left fun hmem => ?_
      rw [mem_boundList] at hmem ⊢
      exact hmem.imp_right fun hb => hbody hb
    split_ifs with hnil
    · rw [List.isEmpty_iff.1 hnil] at hsub
      exact hsub
    · exact hsub
  · obtain ⟨hspares', hknown⟩ := hrun.known hspares hbs hglobals
    refine ⟨?_, hspares'⟩
    split_ifs
    · exact known_substit false hspares' hex
    · exact ⟨fun nb hnb => hknown nb (List.mem_filter.1 hnb).1, known_substit false hspares' hex⟩

end Result

end PVS.TccGen
