import PVS.TccGen.Groups

/-! The universal closure of a formula. -/

namespace PVS.TccGen

variable {T : Terms}

/-- The symbols in a formula, for `id-occurs-in`. -/
def Formula.ids : Formula T → List String
  | .true => []
  | .false => []
  | .atom a => T.atomIds a
  | .not f => ids f
  | .and f g => ids f ++ ids g
  | .or f g => ids f ++ ids g
  | .implies f g => ids f ++ ids g
  | .forAll bs f => bs.flatMap declIds ++ ids f

/-- `needs-naming-apart?`: types are looked at for their free variables only. -/
def needsNamingApart (var : Binding T) : Formula T → Bool
  | .true => false
  | .false => false
  | .atom a => (T.atomNames a).any fun x => x.id = var.id && !sameDeclaration x var
  | .not f => needsNamingApart var f
  | .and f g => needsNamingApart var f || needsNamingApart var g
  | .or f g => needsNamingApart var f || needsNamingApart var g
  | .implies f g => needsNamingApart var f || needsNamingApart var g
  | .forAll bs f =>
    (bs.any fun b => (T.tyFreevars b.type).any fun x => x.id = var.id && !sameDeclaration x var) ||
      needsNamingApart var f

def smallestFreevar (freevars : List (Binding T)) : Option (Binding T) :=
  freevars.find? fun nextfv =>
    !freevars.any fun fv => !sameDeclaration fv nextfv && memDecl fv (T.tyFreevars nextfv.type)

def deleteFreevar (next : Binding T) (freevars : List (Binding T)) : List (Binding T) :=
  freevars.filter fun fv => !sameDeclaration fv next

theorem length_deleteFreevar {next : Binding T} {freevars : List (Binding T)} (h : next ∈ freevars) :
    (deleteFreevar next freevars).length < freevars.length := by
  refine lt_of_le_of_ne (List.length_filter_le _ _) fun heq => ?_
  have hall := List.length_filter_eq_length_iff.1 heq next h
  simp [sameDeclaration] at hall

/-- `sort-freevars*`; none where it does not end. -/
def sortFreevarsStar (freevars : List (Binding T)) : Option (List (Binding T)) :=
  if freevars.isEmpty then some []
  else match _h : smallestFreevar freevars with
    | none => none
    | some next => (sortFreevarsStar (deleteFreevar next freevars)).map (next :: ·)
  termination_by freevars.length
  decreasing_by exact length_deleteFreevar (List.mem_of_find?_eq_some _h)

def sortFreevars (freevars : List (Binding T)) : Option (List (Binding T)) :=
  sortFreevarsStar (freevars.mergeSort fun d e => !decide (e.id < d.id))

section Closure

variable (Q : Checker T)

/-- The binding for a variable, and whether it is a new one. -/
def varToBindingStar (var : Binding T) (expr : Formula T) (vlist : List (Binding T)) (next : ℕ) :
    Binding T × Bool :=
  if needsNamingApart var expr then
    let ids := Q.boundVariables.map Decl.id ++ (expr.ids ++ vlist.flatMap declIds)
    ({ uid := next
       id := makeNewVariable (Q.opToId var.id) ids ids.length 1
       type := var.type
       kind := .bindDecl }, true)
  else if var.kind ≠ .varDecl then (var, false)
  else ({ uid := next, id := var.id, type := var.type, kind := .bindDecl }, true)

/-- The local function `vtb` of `var-to-binding`. -/
def vtb (expr : Formula T) : (vars result : List (Binding T)) → (new : Bool) → (next : ℕ) →
    List (Binding T) × Bool
  | [], result, new, _ => (result.reverse, new)
  | var :: vars, result, new, next =>
    let b := varToBindingStar Q var expr result next
    vtb expr vars (b.1 :: result) (new || b.2) (if b.2 then next + 1 else next)

/-- `substit-bindings`; a binding of which the type changes keeps its number. -/
def substitBindings : (varlist nbindings : List (Binding T)) → List (Binding T)
  | var :: varlist, nb :: nbindings =>
    nb :: substitBindings varlist (if sameDeclaration var nb then nbindings
      else nbindings.map fun b => { b with type := substitType Q b.type [(var, nb)] })
  | _, nbindings => nbindings
  termination_by varlist => varlist.length

def varToBinding (varlist : List (Binding T)) (expr : Formula T) (next : ℕ) :
    List (Binding T) × Bool :=
  let r := vtb Q expr varlist [] false next
  if r.2 then (substitBindings Q varlist r.1, r.2) else r

def insertBindingStar (nbinding : Binding T) : (bindings frees : List (Binding T)) → List (Binding T)
  | bindings, [] => nbinding :: bindings
  | [], _ => []
  | b :: bindings, frees =>
    b :: insertBindingStar nbinding bindings (frees.filter fun fv => !sameDeclaration b fv)

def insertBinding (nbinding : Binding T) (bindings : List (Binding T)) : List (Binding T) :=
  insertBindingStar nbinding bindings
    ((T.tyFreevars nbinding.type).filter fun fv => memDecl fv bindings)

def insertBindings : (newbindings bindings : List (Binding T)) → List (Binding T)
  | [], bindings => bindings
  | nb :: newbindings, bindings =>
    insertBindings newbindings (if memDecl nb bindings then bindings else insertBinding nb bindings)

def freevarSubstit (form : Formula T) (freevarsForm newbindings : List (Binding T)) : Formula T :=
  substit Q true form (freevarsForm.zip newbindings)

/-- `close-freevars` with neither `exist?` nor `fresh-quant?`. -/
def closeFreevars (form : Formula T) (freevarsForm : List (Binding T)) (next : ℕ) : Formula T :=
  if freevarsForm.isEmpty then form
  else
    let r := varToBinding Q freevarsForm form next
    let nform := if r.2 then freevarSubstit Q form freevarsForm r.1 else form
    match form, nform with
    | .forAll _ _, .forAll bindings f => .forAll (insertBindings r.1.reverse bindings) f
    | _, f => .forAll r.1 f

def universalClosure (form : Formula T) (next : ℕ) : Option (Formula T) :=
  (sortFreevars (form.freevars.filter fun x => !memDecl x Q.keepUnbound)).map fun freevarsForm =>
    closeFreevars Q form freevarsForm next

end Closure

/-! ### Sorting the free variables -/

/-- The types of the variables mention variables that are older only. -/
def Older (freevars : List (Binding T)) : Prop :=
  ∀ d ∈ freevars, ∀ u ∈ T.tyFrees d.type, u < d.uid

/-- No binding mentions itself or those that come after it. -/
def InOrder (bindings : List (Binding T)) : Prop :=
  (∀ b ∈ bindings, b.uid ∉ T.tyFrees b.type) ∧
    bindings.Pairwise fun b b' => b'.uid ∉ T.tyFrees b.type

theorem memDecl_tyFreevars {d : Binding T} {t : T.Ty} :
    memDecl d (T.tyFreevars t) = true ↔ d.uid ∈ T.tyFrees t := memDecl_iff

/-- The oldest variable mentions none of the others. -/
theorem smallestFreevar_isSome {freevars : List (Binding T)} (hne : freevars ≠ [])
    (holder : Older freevars) : ∃ next, smallestFreevar freevars = some next := by
  obtain ⟨d, hd, hmin⟩ : ∃ d ∈ freevars, ∀ e ∈ freevars, d.uid ≤ e.uid := by
    induction freevars with
    | nil => exact absurd rfl hne
    | cons d ds ih =>
      by_cases hds : ds = []
      · subst hds
        exact ⟨d, List.mem_cons_self, by simp⟩
      · obtain ⟨e, he, hmin⟩ := ih hds fun e he => holder e (List.mem_cons_of_mem _ he)
        by_cases hle : d.uid ≤ e.uid
        · exact ⟨d, List.mem_cons_self, List.forall_mem_cons.2
            ⟨le_rfl, fun e' he' => hle.trans (hmin e' he')⟩⟩
        · exact ⟨e, List.mem_cons_of_mem _ he, List.forall_mem_cons.2 ⟨by omega, hmin⟩⟩
  rw [← Option.isSome_iff_exists, smallestFreevar, List.find?_isSome]
  refine ⟨d, hd, ?_⟩
  rw [Bool.not_eq_true', List.any_eq_false]
  intro e he hmem
  obtain ⟨-, hmem⟩ := Bool.and_eq_true_iff.1 hmem
  exact absurd (holder d hd _ (memDecl_tyFreevars.1 hmem)) (Nat.not_lt.2 (hmin e he))

theorem smallestFreevar_spec {freevars : List (Binding T)} {next : Binding T}
    (h : smallestFreevar freevars = some next) : next ∈ freevars ∧
      ∀ e ∈ freevars, e.uid ≠ next.uid → e.uid ∉ T.tyFrees next.type := by
  refine ⟨List.mem_of_find?_eq_some h, fun e he hne hmem => ?_⟩
  have hnone := List.find?_some h
  rw [Bool.not_eq_true', List.any_eq_false] at hnone
  refine hnone e he (Bool.and_eq_true_iff.2 ⟨?_, memDecl_tyFreevars.2 hmem⟩)
  simpa [sameDeclaration] using hne

theorem mem_deleteFreevar {d next : Binding T} {freevars : List (Binding T)} :
    d ∈ deleteFreevar next freevars ↔ d ∈ freevars ∧ d.uid ≠ next.uid := by
  simp [deleteFreevar, sameDeclaration]

theorem sortFreevarsStar_spec (freevars : List (Binding T))
    (hnodup : (freevars.map Decl.uid).Nodup) (holder : Older freevars) :
    ∃ fvs, sortFreevarsStar freevars = some fvs ∧ (∀ d, d ∈ fvs ↔ d ∈ freevars) ∧
      (fvs.map Decl.uid).Nodup ∧ InOrder fvs := by
  fun_induction sortFreevarsStar freevars with
  | case1 freevars hempty =>
    rw [List.isEmpty_iff.1 hempty]
    exact ⟨[], rfl, fun d => Iff.rfl, List.nodup_nil, by simp, List.Pairwise.nil⟩
  | case2 freevars hne hnone =>
    obtain ⟨next, hnext⟩ := smallestFreevar_isSome (mt List.isEmpty_iff.2 hne) holder
    rw [hnone] at hnext
    cases hnext
  | case3 freevars hne next hnext ih =>
    obtain ⟨hmem, hsmall⟩ := smallestFreevar_spec hnext
    have hsub : (deleteFreevar next freevars).Sublist freevars := List.filter_sublist
    obtain ⟨fvs, hfvs, hperm, hdistinct, hown, horder⟩ := ih (hnodup.sublist (hsub.map _))
      fun d hd => holder d (hsub.subset hd)
    refine ⟨next :: fvs, by rw [hfvs]; rfl, fun d => ?_, ?_, ?_, ?_⟩
    · rw [List.mem_cons, hperm, mem_deleteFreevar]
      constructor
      · rintro (rfl | ⟨hd, -⟩)
        · exact hmem
        · exact hd
      · intro hd
        by_cases heq : d.uid = next.uid
        · exact .inl (List.inj_on_of_nodup_map hnodup hd hmem heq)
        · exact .inr ⟨hd, heq⟩
    · rw [List.map_cons, List.nodup_cons]
      refine ⟨fun hin => ?_, hdistinct⟩
      obtain ⟨e, he, heq⟩ := List.mem_map.1 hin
      exact (mem_deleteFreevar.1 ((hperm e).1 he)).2 heq
    · rw [List.forall_mem_cons]
      exact ⟨fun hmem' => absurd (holder next hmem _ hmem') (lt_irrefl _), hown⟩
    · refine List.pairwise_cons.2 ⟨fun e he => ?_, horder⟩
      obtain ⟨he, hne⟩ := mem_deleteFreevar.1 ((hperm e).1 he)
      exact hsmall e he hne

theorem sortFreevars_spec (freevars : List (Binding T))
    (hnodup : (freevars.map Decl.uid).Nodup) (holder : Older freevars) :
    ∃ fvs, sortFreevars freevars = some fvs ∧ (∀ d, d ∈ fvs ↔ d ∈ freevars) ∧
      (fvs.map Decl.uid).Nodup ∧ InOrder fvs := by
  have hperm := List.mergeSort_perm freevars fun d e => !decide (e.id < d.id)
  obtain ⟨fvs, hfvs, hmem, hrest⟩ := sortFreevarsStar_spec _ ((hperm.map _).nodup_iff.2 hnodup)
    fun d hd => holder d (hperm.mem_iff.1 hd)
  exact ⟨fvs, hfvs, fun d => (hmem d).trans hperm.mem_iff, hrest⟩

/-! ### The new bindings -/

section NewBindings

variable {Q : Checker T} {N : ℕ} {done : Set ℕ} {substs : Alist T} {next : ℕ}

/-- The type of a binding is that of a variable with some variables renamed. -/
structure TypeRenamed (Q : Checker T) (substs : Alist T) (var nb : Binding T) : Prop where
  ty : ∀ (M : Model Q) env, M.ty nb.type env = M.ty var.type (env ∘ substs.rename)
  frees : ∀ u ∈ T.tyFrees nb.type, ∃ w ∈ T.tyFrees var.type, u = substs.rename w
  bound : T.tyBound nb.type ⊆ T.tyBound var.type
  known : ∀ globals, substs.Spares globals → Known globals (T.tyFreevars var.type) →
    Known globals (T.tyFreevars nb.type)

/-- The bindings for the variables while those before them have been renamed. -/
inductive Pending (Q : Checker T) (substs : Alist T) :
    ℕ → List (Binding T) → List (Binding T) → Prop
  | nil {next : ℕ} : Pending Q substs next [] []
  | kept {next : ℕ} {var nb vars nbs} (type : TypeRenamed Q substs var nb) (uid : nb.uid = var.uid)
    (rest : Pending Q substs next vars nbs) : Pending Q substs next (var :: vars) (nb :: nbs)
  | new {next : ℕ} {var nb vars nbs} (type : TypeRenamed Q substs var nb) (uid : nb.uid = next)
    (rest : Pending Q substs (next + 1) vars nbs) : Pending Q substs next (var :: vars) (nb :: nbs)

theorem TypeRenamed.refl {var nb : Binding T} (h : nb.type = var.type) :
    TypeRenamed Q [] var nb := by
  refine ⟨fun M env => ?_, fun u hu => ⟨u, h ▸ hu, rfl⟩, by rw [h], fun globals _ hvar => by rwa [h]⟩
  rw [h]
  rfl

theorem varToBindingStar_spec (var : Binding T) (expr : Formula T) (vlist : List (Binding T))
    (next : ℕ) :
    ((varToBindingStar Q var expr vlist next).2 = false ∧
      (varToBindingStar Q var expr vlist next).1 = var) ∨
    ((varToBindingStar Q var expr vlist next).2 = true ∧
      (varToBindingStar Q var expr vlist next).1.uid = next ∧
        (varToBindingStar Q var expr vlist next).1.type = var.type) := by
  rw [varToBindingStar]
  split_ifs
  · exact .inr ⟨rfl, rfl, rfl⟩
  · exact .inl ⟨rfl, rfl⟩
  · exact .inr ⟨rfl, rfl, rfl⟩

theorem vtb_spec (expr : Formula T) (vars result : List (Binding T)) (new : Bool) (next : ℕ) :
    ∃ nbs, (vtb Q expr vars result new next).1 = result.reverse ++ nbs ∧
      Pending Q [] next vars nbs ∧
        ((vtb Q expr vars result new next).2 = false → nbs = vars ∧ new = false) := by
  induction vars generalizing result new next with
  | nil => exact ⟨[], by simp [vtb], .nil, fun hnew => ⟨rfl, hnew⟩⟩
  | cons var vars ih =>
    rw [vtb]
    obtain ⟨nbs, hnbs, hpending, hnew⟩ := ih ((varToBindingStar Q var expr result next).1 :: result)
      (new || (varToBindingStar Q var expr result next).2)
      (if (varToBindingStar Q var expr result next).2 then next + 1 else next)
    refine ⟨(varToBindingStar Q var expr result next).1 :: nbs, by rw [hnbs]; simp, ?_, fun hfalse => ?_⟩
    · rcases varToBindingStar_spec (Q := Q) var expr result next with ⟨hold, heq⟩ | ⟨htrue, huid, htype⟩
      · rw [hold] at hpending
        exact .kept (.refl (congrArg Decl.type heq)) (congrArg Decl.uid heq) hpending
      · rw [htrue] at hpending
        exact .new (.refl htype) huid hpending
    · obtain ⟨rfl, hor⟩ := hnew hfalse
      obtain ⟨hnew', hold⟩ := Bool.or_eq_false_iff.1 hor
      rcases varToBindingStar_spec (Q := Q) var expr result next with ⟨-, heq⟩ | ⟨htrue, -⟩
      · exact ⟨by rw [heq], hnew'⟩
      · rw [hold] at htrue
        cases htrue

/-- A variable that is renamed next. -/
theorem rename_cons_eq (h : Renames [] N done substs next) {var nb : Binding T} (hvar : var.uid < N)
    (hnew : var.uid ∉ done) {w : ℕ} (hw : w < N) :
    Alist.rename [(var, nb)] (substs.rename w) = Alist.rename ((var, nb) :: substs) w := by
  have hkey : ∀ entry ∈ substs, entry.1.uid ≠ var.uid := by
    intro entry hentry heq
    rcases h.entries entry hentry with hstale | ⟨hmem, -⟩
    · cases hstale
    · exact hnew (heq ▸ hmem)
  have hrel : w ∈ Relevant ([] : Alist T) N := ⟨hw, by simp⟩
  rw [Alist.rename_cons, Alist.rename_cons]
  by_cases heq : var.uid = w
  · subst heq
    rw [Alist.rename_of_forall_ne hkey]
    simp
  · rw [if_neg heq]
    rcases h.rename_or hrel with hsame | ⟨hle, -⟩
    · rw [hsame, if_neg heq]
      rfl
    · rw [if_neg (Nat.ne_of_lt (lt_of_lt_of_le hvar hle))]
      rfl

theorem TypeRenamed.step (h : Renames [] N done substs next) {var nb v b : Binding T}
    (hvar : var.uid < N) (hnew : var.uid ∉ done) (hnb : N ≤ nb.uid)
    (hfrees : ∀ u ∈ T.tyFrees v.type, u < N) (hbound : ∀ u ∈ T.tyBound v.type, u < N ∧ u ≠ var.uid)
    (hb : TypeRenamed Q substs v b) :
    TypeRenamed Q ((var, nb) :: substs) v { b with type := substitType Q b.type [(var, nb)] } := by
  have hfits : Alist.Fits [(var, nb)] (T.tyFrees b.type) (T.tyBound b.type) := by
    refine ⟨List.nodup_singleton _, fun entry hentry _ => ?_⟩
    rw [List.mem_singleton.1 hentry]
    exact ⟨fun hmem => (hbound _ (hb.bound hmem)).2 rfl,
      fun hmem => absurd (hbound _ (hb.bound hmem)).1 (Nat.not_lt.2 hnb)⟩
  refine ⟨fun M env => ?_, fun u hu => ?_, fun u hu => hb.bound (tyBound_substitType hu),
    fun globals hspares hv => ?_⟩
  · rw [ty_substitType hfits, hb.ty]
    refine M.loc.ty v.type _ _ fun u hu => ?_
    rw [Function.comp_apply, Function.comp_apply, Function.comp_apply,
      rename_cons_eq h hvar hnew (hfrees u hu)]
  · obtain ⟨w, hw, rfl⟩ := tyFrees_substitType hfits u hu
    obtain ⟨x, hx, rfl⟩ := hb.frees w hw
    exact ⟨x, hx, rename_cons_eq h hvar hnew (hfrees x hx)⟩
  · refine known_substitType (fun entry hentry => ?_)
      (hb.known globals (fun entry hentry => hspares entry (List.mem_cons_of_mem _ hentry)) hv)
    exact hspares entry (List.mem_singleton.1 hentry ▸ List.mem_cons_self)

/-- The bindings that are left after one that is new. -/
theorem Pending.step (h : Renames [] N done substs next) {var nb : Binding T} (hvar : var.uid < N)
    (hnew : var.uid ∉ done) (hnb : N ≤ nb.uid) {next' : ℕ} {vars nbs : List (Binding T)}
    (hvars : ∀ v ∈ vars, (∀ u ∈ T.tyFrees v.type, u < N) ∧
      ∀ u ∈ T.tyBound v.type, u < N ∧ u ≠ var.uid)
    (hpending : Pending Q substs next' vars nbs) :
    Pending Q ((var, nb) :: substs) next' vars
      (nbs.map fun b => { b with type := substitType Q b.type [(var, nb)] }) := by
  induction hpending with
  | nil => exact .nil
  | kept type uid rest ih =>
    rw [List.forall_mem_cons] at hvars
    exact .kept (type.step h hvar hnew hnb hvars.1.1 hvars.1.2) uid (ih hvars.2)
  | new type uid rest ih =>
    rw [List.forall_mem_cons] at hvars
    exact .new (type.step h hvar hnew hnb hvars.1.1 hvars.1.2) uid (ih hvars.2)

theorem Pending.run (h : Renames [] N done substs next) {vars nbs : List (Binding T)}
    (hok : GroupOk [] N done vars) (hpending : Pending Q substs next vars nbs) :
    ∃ r, GroupRun Q [] N done substs next vars (substitBindings Q vars nbs) r := by
  induction vars generalizing done substs next nbs with
  | nil =>
    cases hpending
    rw [substitBindings]
    · exact ⟨_, .nil h⟩
    · simp
  | cons var vars ih =>
    obtain ⟨hvar, hnew, hfrees⟩ := hok.relevant var List.mem_cons_self
    obtain ⟨hnot, -⟩ := List.nodup_cons.1 hok.nodup
    have hkey : ∀ entry ∈ substs, entry.1.uid ≠ var.uid := by
      intro entry hentry heq
      rcases h.entries entry hentry with hstale | ⟨hmem, -⟩
      · cases hstale
      · exact hnew (heq ▸ hmem)
    cases hpending with
    | @kept next var nb vars nbs type uid rest =>
      have hsame : sameDeclaration var nb = true := by simp [sameDeclaration, uid]
      rw [substitBindings, if_pos hsame]
      have hrenames : Renames [] N (insert var.uid done) substs next :=
        ⟨h.keys, fun entry hentry => (h.entries entry hentry).imp_right fun he => ⟨.inr he.1, he.2⟩, h.le⟩
      obtain ⟨r, hr⟩ := ih hrenames hok.tail rest
      refine ⟨r, .cons h hvar hfrees (r := (substs, next)) ⟨?_, fun u _ => rfl, .inl uid, le_rfl, type.ty,
        type.frees, type.bound, type.known, .inl rfl⟩ hr⟩
      rw [Alist.binding, Alist.assq_eq_none.2 hkey]
      exact uid.symm
    | @new _ _ nb _ nbs type uid rest =>
      have hnb : N ≤ nb.uid := uid ▸ h.le
      have hother : sameDeclaration var nb = false := by
        rw [sameDeclaration, decide_eq_false_iff_not]
        exact Nat.ne_of_lt (lt_of_lt_of_le hvar.1 hnb)
      rw [substitBindings, hother, if_neg Bool.false_ne_true]
      have hrenames : Renames [] N (insert var.uid done) ((var, nb) :: substs) (next + 1) := by
        refine ⟨List.nodup_cons.2 ⟨fun hmem => ?_, h.keys⟩, fun entry hentry => ?_, Nat.le_succ_of_le h.le⟩
        · obtain ⟨entry, hentry, heq⟩ := List.mem_map.1 hmem
          exact hkey entry hentry heq
        · rcases List.mem_cons.1 hentry with rfl | hentry
          · exact .inr ⟨.inl rfl, hnb, uid ▸ Nat.lt_succ_self _⟩
          · exact (h.entries entry hentry).imp_right fun he =>
              ⟨.inr he.1, he.2.1, Nat.lt_succ_of_lt he.2.2⟩
      obtain ⟨r, hr⟩ := ih hrenames hok.tail (rest.step h hvar.1 hnew hnb fun v hv =>
        ⟨fun u hu => ((hok.relevant v (List.mem_cons_of_mem _ hv)).2.2 hu).1, fun u hu =>
          ⟨(hok.bound v (List.mem_cons_of_mem _ hv) u hu).1, fun heq =>
            (hok.bound v (List.mem_cons_of_mem _ hv) u hu).2.2 var List.mem_cons_self heq.symm⟩⟩)
      exact ⟨r, .cons h hvar hfrees (r := ((var, nb) :: substs, next + 1))
        ⟨congrArg (fun d => (Option.getD d var).uid) (Alist.assq_cons_self (var, nb)),
          fun u hu => Alist.assq_cons_of_ne (Ne.symm hu), .inr ⟨uid, rfl⟩, Nat.le_succ _, type.ty,
          type.frees, type.bound, type.known, .inr ⟨rfl, uid⟩⟩ hr⟩

/-- The substitution in the formula is the one of the run. -/
theorem GroupRun.rename_zip {stale : Alist T} {vars nbs : List (Binding T)} {r : Alist T × ℕ}
    (h : GroupRun Q stale N done substs next vars nbs r) (hnodup : (vars.map Decl.uid).Nodup)
    (u : ℕ) : r.1.rename u = Alist.rename (vars.zip nbs ++ substs) u := by
  induction h with
  | nil h => rfl
  | @cons done substs next bd nbd r cbindings nbindings r' h _ _ renamed _ ih =>
    obtain ⟨hnot, hnodup⟩ := List.nodup_cons.1 hnodup
    rw [ih hnodup, List.zip_cons_cons, List.cons_append, Alist.rename_cons]
    have happend : ∀ alist : Alist T, (∀ entry ∈ cbindings.zip nbindings, entry.1.uid ≠ u) →
        Alist.rename (cbindings.zip nbindings ++ alist) u = alist.rename u := by
      intro alist hne
      rw [Alist.rename, Alist.rename, Alist.assq, Alist.assq, List.find?_append,
        List.find?_eq_none.2 fun entry hentry => by simpa using hne entry hentry]
      rfl
    by_cases heq : bd.uid = u
    · rw [if_pos heq, happend, renamed.rename, if_pos heq.symm]
      rintro entry hentry rfl
      exact hnot (heq ▸ List.mem_map_of_mem (List.of_mem_zip hentry).1)
    · rw [if_neg heq]
      cases hfind : (cbindings.zip nbindings).find? fun entry => entry.1.uid = u with
      | none =>
        have hne := List.find?_eq_none.1 hfind
        rw [happend _ fun entry hentry => by simpa using hne entry hentry,
          happend _ fun entry hentry => by simpa using hne entry hentry, renamed.rename,
          if_neg (Ne.symm heq)]
      | some entry =>
        rw [Alist.rename, Alist.rename, Alist.assq, Alist.assq, List.find?_append, List.find?_append,
          hfind]
        rfl

theorem GroupRun.relevant {stale : Alist T} {vars nbs : List (Binding T)} {r : Alist T × ℕ}
    (h : GroupRun Q stale N done substs next vars nbs r) : ∀ b ∈ vars, b.uid ∈ Relevant stale N := by
  induction h with
  | nil h => simp
  | cons h relevant frees renamed rest ih => exact List.forall_mem_cons.2 ⟨relevant, ih⟩

theorem GroupRun.length {stale : Alist T} {vars nbs : List (Binding T)} {r : Alist T × ℕ}
    (h : GroupRun Q stale N done substs next vars nbs r) : vars.length = nbs.length := by
  induction h with
  | nil h => rfl
  | cons h relevant frees renamed rest ih => exact congrArg Nat.succ ih

/-- What the new types mention is old, or it was made for one of the variables. -/
theorem GroupRun.tyFrees {stale : Alist T} {vars nbs : List (Binding T)} {r : Alist T × ℕ}
    (h : GroupRun Q stale N done substs next vars nbs r) : ∀ nb ∈ nbs, ∀ u ∈ T.tyFrees nb.type,
      (∃ v ∈ vars, u ∈ T.tyFrees v.type) ∨ N ≤ u := by
  induction h with
  | nil h => simp
  | @cons done substs next bd nbd r cbindings nbindings r' h relevant frees renamed rest ih =>
    refine List.forall_mem_cons.2 ⟨fun u hu => ?_, fun nb hnb u hu => ?_⟩
    · obtain ⟨w, hw, rfl⟩ := renamed.frees u hu
      rcases h.rename_or (frees hw) with heq | ⟨hle, -⟩
      · exact .inl ⟨bd, List.mem_cons_self, heq.symm ▸ hw⟩
      · exact .inr hle
    · exact (ih nb hnb u hu).imp_left fun ⟨v, hv, hty⟩ => ⟨v, List.mem_cons_of_mem _ hv, hty⟩

theorem GroupRun.nodup {stale : Alist T} {vars nbs : List (Binding T)} {r : Alist T × ℕ}
    (h : GroupRun Q stale N done substs next vars nbs r) (hnodup : (vars.map Decl.uid).Nodup) :
    (nbs.map Decl.uid).Nodup := by
  induction h with
  | nil h => exact List.nodup_nil
  | @cons done substs next bd nbd r cbindings nbindings r' h relevant frees renamed rest ih =>
    obtain ⟨hnot, hnodup⟩ := List.nodup_cons.1 hnodup
    refine List.nodup_cons.2 ⟨fun hmem => ?_, ih hnodup⟩
    obtain ⟨nb, hnb, heq⟩ := List.mem_map.1 hmem
    rcases rest.uids nb hnb with ⟨b, hb, hbu⟩ | hle
    · rcases renamed.uid with hkept | ⟨hfresh, -⟩
      · exact hnot (hkept ▸ heq ▸ hbu ▸ List.mem_map_of_mem hb)
      · have hlt := (rest.relevant b hb).1
        have hN := h.le
        omega
    · rcases renamed.uid with hkept | ⟨hfresh, hr⟩
      · have hlt := relevant.1
        have hN := h.le
        have hstep := renamed.le
        omega
      · omega

/-- The new bindings do not mention those that come after them. -/
theorem GroupRun.inOrder {vars nbs : List (Binding T)} {r : Alist T × ℕ}
    (h : GroupRun Q [] N done substs next vars nbs r) (horder : InOrder vars) : InOrder nbs := by
  induction h with
  | nil h => exact ⟨by simp, List.Pairwise.nil⟩
  | @cons done substs next bd nbd r cbindings nbindings r' h relevant frees renamed rest ih =>
    obtain ⟨hown, hafter⟩ := horder
    rw [List.forall_mem_cons] at hown
    obtain ⟨hbd, hafter⟩ := List.pairwise_cons.1 hafter
    obtain ⟨hown', hafter'⟩ := ih ⟨hown.2, hafter⟩
    -- what the type mentions is a variable that it mentioned, or a new one that is older
    have hfrees : ∀ u ∈ T.tyFrees nbd.type, u ∈ T.tyFrees bd.type ∨ N ≤ u ∧ u < next := by
      intro u hu
      obtain ⟨w, hw, rfl⟩ := renamed.frees u hu
      refine (h.rename_or (frees hw)).imp_left fun heq => ?_
      rwa [heq]
    refine ⟨List.forall_mem_cons.2 ⟨fun hmem => ?_, hown'⟩, List.pairwise_cons.2
      ⟨fun nb hnb hmem => ?_, hafter'⟩⟩
    · rcases renamed.uid with heq | ⟨heq, -⟩
      · rcases hfrees _ hmem with hmem | ⟨hle, -⟩
        · exact hown.1 (heq ▸ hmem)
        · exact absurd relevant.1 (Nat.not_lt.2 (heq ▸ hle))
      · rcases hfrees _ hmem with hmem | ⟨-, hlt⟩
        · exact absurd (heq ▸ (frees hmem).1) (Nat.not_lt.2 h.le)
        · exact absurd hlt (heq ▸ lt_irrefl _)
    · rcases rest.uids nb hnb with ⟨b, hb, heq⟩ | hle
      · rcases hfrees _ hmem with hmem | ⟨hle, -⟩
        · exact hbd b hb (heq ▸ hmem)
        · exact absurd (rest.relevant b hb).1 (Nat.not_lt.2 (heq ▸ hle))
      · rcases hfrees _ hmem with hmem | ⟨-, hlt⟩
        · exact absurd (lt_of_lt_of_le (frees hmem).1 (h.le.trans renamed.le)) (Nat.not_lt.2 hle)
        · exact absurd (lt_of_lt_of_le hlt renamed.le) (Nat.not_lt.2 hle)

end NewBindings

/-! ### Bindings before bindings -/

theorem insertBinding_eq {nb : Binding T} {bindings : List (Binding T)}
    (h : ∀ b ∈ bindings, b.uid ∉ T.tyFrees nb.type) : insertBinding nb bindings = nb :: bindings := by
  have hfrees : (T.tyFreevars nb.type).filter (fun fv => memDecl fv bindings) = [] := by
    refine List.filter_eq_nil_iff.2 fun fv hfv hmem => ?_
    obtain ⟨b, hb, heq⟩ := memDecl_iff.1 hmem
    exact h b hb ⟨fv, hfv, heq.symm⟩
  rw [insertBinding, hfrees, insertBindingStar]

theorem insertBindings_append (xs ys bindings : List (Binding T)) :
    insertBindings (xs ++ ys) bindings = insertBindings ys (insertBindings xs bindings) := by
  induction xs generalizing bindings with
  | nil => rfl
  | cons x xs ih => exact ih _

/-- New bindings that mention none of those after them come first, in their order. -/
theorem insertBindings_eq {newbindings bindings : List (Binding T)}
    (hdistinct : (newbindings.map Decl.uid).Nodup) (horder : InOrder newbindings)
    (hnew : ∀ nb ∈ newbindings, ∀ b ∈ bindings, b.uid ≠ nb.uid ∧ b.uid ∉ T.tyFrees nb.type) :
    insertBindings newbindings.reverse bindings = newbindings ++ bindings := by
  induction newbindings with
  | nil => rfl
  | cons nb newbindings ih =>
    obtain ⟨hnot, hdistinct⟩ := List.nodup_cons.1 hdistinct
    obtain ⟨hafter, horder'⟩ := List.pairwise_cons.1 horder.2
    rw [List.forall_mem_cons] at hnew
    have hown := (List.forall_mem_cons.1 horder.1).2
    rw [List.reverse_cons, insertBindings_append, ih hdistinct ⟨hown, horder'⟩ hnew.2, insertBindings,
      insertBindings]
    have hmem : memDecl nb (newbindings ++ bindings) = false := by
      rw [Bool.eq_false_iff, Ne, memDecl_iff]
      rintro ⟨b, hb, heq⟩
      rcases List.mem_append.1 hb with hb | hb
      · exact hnot (heq ▸ List.mem_map_of_mem hb)
      · exact (hnew.1 b hb).1 heq
    rw [hmem, if_neg Bool.false_ne_true, insertBinding_eq]
    · rfl
    · intro b hb
      rcases List.mem_append.1 hb with hb | hb
      · exact hafter b hb
      · exact (hnew.1 b hb).2

theorem forAll_append {M : Interpretation T} {bs cs : List (Binding T)} {P : (ℕ → M.Val) → Prop}
    {env : ℕ → M.Val} : M.ForAll (bs ++ cs) P env ↔ M.ForAll bs (M.ForAll cs P) env := by
  induction bs generalizing env with
  | nil => rfl
  | cons b bs ih => exact forall₂_congr fun v _ => ih

theorem freesList_append (bs cs : List (Binding T)) (S : Set ℕ) :
    freesList (bs ++ cs) S = freesList bs (freesList cs S) := by
  induction bs with
  | nil => rfl
  | cons b bs ih => rw [List.cons_append, freesList, ih, freesList]

/-- What is free under bindings in order that mention each other, or some set, only. -/
theorem freesList_subset {bs : List (Binding T)} {S K : Set ℕ} (horder : InOrder bs)
    (htypes : ∀ b ∈ bs, ∀ u ∈ T.tyFrees b.type, (∃ b' ∈ bs, b'.uid = u) ∨ u ∈ K)
    (hS : ∀ u ∈ S, (∃ b' ∈ bs, b'.uid = u) ∨ u ∈ K) : freesList bs S ⊆ K := by
  induction bs generalizing K with
  | nil => exact fun u hu => (hS u hu).resolve_left (by simp)
  | cons b bs ih =>
    obtain ⟨hown, horder⟩ := horder
    rw [List.forall_mem_cons] at hown
    obtain ⟨hafter, horder⟩ := List.pairwise_cons.1 horder
    have hcons : ∀ u, ((∃ b' ∈ b :: bs, b'.uid = u) ∨ u ∈ K) →
        (∃ b' ∈ bs, b'.uid = u) ∨ u ∈ insert b.uid K := by
      rintro u (⟨b', hb', rfl⟩ | hu)
      · rcases List.mem_cons.1 hb' with rfl | hb'
        · exact .inr (.inl rfl)
        · exact .inl ⟨b', hb', rfl⟩
      · exact .inr (.inr hu)
    rintro u (hu | ⟨hu, hne⟩)
    · rcases htypes b List.mem_cons_self u hu with ⟨b', hb', rfl⟩ | hK
      · rcases List.mem_cons.1 hb' with rfl | hb'
        · exact absurd hu hown.1
        · exact absurd hu (hafter b' hb')
      · exact hK
    · have hrest := ih ⟨hown.2, horder⟩
        (fun b' hb' u hu => hcons u (htypes b' (List.mem_cons_of_mem _ hb') u hu))
        (fun u hu => hcons u (hS u hu)) hu
      exact hrest.resolve_left hne

/-! ### The closure -/

theorem nodup_fvUnion {ds es : List (Binding T)} (hds : (ds.map Decl.uid).Nodup)
    (hes : (es.map Decl.uid).Nodup) : ((fvUnion ds es).map Decl.uid).Nodup := by
  rw [fvUnion, List.map_append]
  refine List.nodup_append'.2 ⟨hds, hes.sublist (List.filter_sublist.map _), ?_⟩
  intro u hu hu'
  obtain ⟨d, hd, rfl⟩ := List.mem_map.1 hu
  obtain ⟨e, he, heq⟩ := List.mem_map.1 hu'
  obtain ⟨-, hnot⟩ := List.mem_filter.1 he
  rw [Bool.not_eq_true', Bool.eq_false_iff, Ne, memDecl_iff] at hnot
  exact hnot ⟨d, hd, heq.symm⟩

theorem nodup_freevarsList (bs : List (Binding T)) : ((freevarsList bs).map Decl.uid).Nodup := by
  induction bs with
  | nil => exact List.nodup_nil
  | cons b bs ih =>
    exact (nodup_fvUnion (T.tyFreevars_nodup b.type) ih).sublist (List.filter_sublist.map _)

theorem Formula.nodup_freevars (f : Formula T) : (f.freevars.map Decl.uid).Nodup := by
  induction f with
  | true => exact List.nodup_nil
  | false => exact List.nodup_nil
  | atom a => exact T.atomFreevars_nodup a
  | not f ih => exact ih
  | forAll bs f ih =>
    exact nodup_fvUnion (nodup_freevarsList bs) (ih.sublist (List.filter_sublist.map _))
  | _ f g ihf ihg => exact nodup_fvUnion ihf ihg

/-- What the closure of a formula needs: its free variables are older than what is made, those in
their types are older and free too, and none of them is bound. -/
structure ClosureOk (form : Formula T) (next : ℕ) : Prop where
  older : Older form.freevars
  closed : ∀ d ∈ form.freevars, ∀ u ∈ T.tyFrees d.type, ∃ e ∈ form.freevars, e.uid = u
  free : ∀ d ∈ form.freevars, d.uid < next ∧ d.uid ∉ form.bound
  types : ∀ d ∈ form.freevars, ∀ u ∈ T.tyBound d.type, u < next ∧ ∀ e ∈ form.freevars, e.uid ≠ u
  bound : ∀ u ∈ form.bound, u < next
  apart : ∀ u ∈ form.frees, u ∉ form.bound

/-- What the closure of a formula is. -/
structure ClosureResult (Q : Checker T) (form : Formula T) (fvs : List (Binding T))
    (closure : Formula T) : Prop where
  vars : ∀ d, d ∈ fvs ↔ d ∈ form.freevars ∧ memDecl d Q.keepUnbound = false
  holds : ∀ (M : Model Q) env, M.Holds closure env ↔ M.ForAll fvs (M.Holds form) env
  meaningful : ∀ (M : Model Q) env, M.ForAll fvs (M.Meaningful form) env → M.Meaningful closure env
  closed : ∀ u ∈ closure.frees, ∃ d ∈ Q.keepUnbound, d.uid = u

section ClosureSpec

variable {Q : Checker T} {form : Formula T} {next : ℕ} {vars nbs : List (Binding T)} {r : Alist T × ℕ}

/-- The bindings with their substitution in the formula. -/
structure ClosureRun (Q : Checker T) (form nform : Formula T) (next : ℕ)
    (vars nbs : List (Binding T)) (r : Alist T × ℕ) : Prop where
  run : GroupRun Q [] next ∅ [] next vars nbs r
  holds : ∀ (M : Model Q) env, M.Holds nform env ↔ M.Holds form (env ∘ r.1.rename)
  meaningful : ∀ (M : Model Q) env, M.Meaningful form (env ∘ r.1.rename) → M.Meaningful nform env
  frees : ∀ u ∈ nform.frees, ∃ w ∈ form.frees, u = r.1.rename w
  bound : nform.bound ⊆ form.bound

theorem zip_fits (hrun : GroupRun Q [] next ∅ [] next vars nbs r) (hok : ClosureOk form next)
    (hvars : ∀ v ∈ vars, v ∈ form.freevars) (hnodup : (vars.map Decl.uid).Nodup) :
    Alist.Fits (vars.zip nbs) form.frees form.bound := by
  refine ⟨?_, fun entry hentry _ => ?_⟩
  · have hkeys : (vars.zip nbs).map (fun entry => entry.1.uid) =
        ((vars.zip nbs).map Prod.fst).map Decl.uid := by simp
    rwa [hkeys, List.map_fst_zip hrun.length.le]
  · obtain ⟨hvar, hnb⟩ := List.of_mem_zip hentry
    refine ⟨(hok.free _ (hvars _ hvar)).2, fun hmem => ?_⟩
    rcases hrun.uids _ hnb with ⟨b, hb, heq⟩ | hle
    · exact (hok.free b (hvars b hb)).2 (heq ▸ hmem)
    · exact Nat.not_lt.2 hle (hok.bound _ hmem)

theorem closureRun (hok : ClosureOk form next) (hvars : ∀ v ∈ vars, v ∈ form.freevars)
    (hnodup : (vars.map Decl.uid).Nodup) :
    ∃ r, ClosureRun Q form (if (varToBinding Q vars form next).2 then
      freevarSubstit Q form vars (varToBinding Q vars form next).1 else form) next vars
        (varToBinding Q vars form next).1 r := by
  have hgroup : GroupOk ([] : Alist T) next ∅ vars := by
    refine ⟨hnodup, fun b hb => ⟨⟨(hok.free b (hvars b hb)).1, by simp⟩, id, fun u hu => ?_⟩,
      fun b hb u hu => ⟨(hok.types b (hvars b hb) u hu).1, id, fun b' hb' =>
        (hok.types b (hvars b hb) u hu).2 b' (hvars b' hb')⟩⟩
    obtain ⟨e, he, rfl⟩ := hok.closed b (hvars b hb) u hu
    exact ⟨(hok.free e he).1, by simp⟩
  have hstart : Renames ([] : Alist T) next ∅ [] next := ⟨List.nodup_nil, by simp, le_rfl⟩
  obtain ⟨nbs, hnbs, hpending, hkept⟩ := vtb_spec (Q := Q) form vars [] false next
  obtain ⟨r, hrun⟩ := hpending.run hstart hgroup
  rw [List.reverse_nil, List.nil_append] at hnbs
  rw [varToBinding]
  by_cases hnew : (vtb Q form vars [] false next).2 = true
  · rw [if_pos hnew, hnbs]
    simp only [hnew, if_true]
    have hfits := zip_fits hrun hok hvars hnodup
    have hrename : r.1.rename = Alist.rename (vars.zip (substitBindings Q vars nbs)) := by
      funext u
      rw [hrun.rename_zip hnodup, List.append_nil]
    refine ⟨r, hrun, fun M env => ?_, fun M env hform => ?_, ?_, bound_substit true⟩
    · rw [hrename]
      exact holds_substit true hfits env
    · rw [hrename] at hform
      exact meaningful_substit true hfits env hform
    · rw [hrename]
      exact frees_substit true hfits
  · rw [if_neg hnew, hnbs, (hkept (by simpa using hnew)).1]
    simp only [hnew]
    have hkeep : ∀ vars : List (Binding T), substitBindings Q vars vars = vars := by
      intro vars
      induction vars with
      | nil => simp [substitBindings]
      | cons var vars ih =>
        have hsame : sameDeclaration var var = true := by simp [sameDeclaration]
        rw [substitBindings, if_pos hsame, ih]
    rw [(hkept (by simpa using hnew)).1, hkeep] at hrun
    have hrename : r.1.rename = id := by
      funext u
      rw [hrun.rename_zip hnodup, List.append_nil]
      rcases Alist.rename_cases (vars.zip vars) u with ⟨heq, -⟩ | ⟨entry, hentry, hkey, heq⟩
      · exact heq
      · obtain ⟨d, -, rfl⟩ : ∃ d ∈ vars, (d, d) = entry := by
          rw [List.zip, List.zipWith_self] at hentry
          exact List.mem_map.1 hentry
        exact heq.trans hkey
    refine ⟨r, hrun, fun M env => ?_, fun M env hform => ?_, fun u hu => ⟨u, hu, ?_⟩, subset_rfl⟩
    · rw [hrename]
      rfl
    · rw [hrename] at hform
      exact hform
    · rw [hrename]
      rfl

/-- The new bindings and the formula under them. -/
theorem ClosureRun.result (hok : ClosureOk form next) {nform : Formula T}
    (h : ClosureRun Q form nform next vars nbs r) (horder : InOrder vars)
    (hvars : ∀ d, d ∈ vars ↔ d ∈ form.freevars ∧ memDecl d Q.keepUnbound = false) :
    ClosureResult Q form vars (.forAll nbs nform) := by
  have hfree : ∀ u ∈ form.frees, ∃ d ∈ form.freevars, d.uid = u := fun u hu =>
    (Formula.mem_freevars (hok.apart u hu)).2 hu
  have hagrees : ∀ (M : Model Q) (env : ℕ → M.Val), Agrees ([] : Alist T) next [] env env :=
    fun M env u hu => rfl
  have hframe : ∀ (M : Model Q) (e e' : ℕ → M.Val), Agrees ([] : Alist T) next r.1 e' e →
      ∀ u ∈ form.frees, e u = (e' ∘ r.1.rename) u := by
    intro M e e' hagree u hu
    obtain ⟨d, hd, rfl⟩ := hfree u hu
    exact (hagree d.uid ⟨(hok.free d hd).1, by simp⟩).symm
  refine ⟨hvars, fun M env => ?_, fun M env hmeaningful => ?_, ?_⟩
  · obtain ⟨hforth, hback⟩ := h.run.assigns (hagrees M env)
    have hsame : ∀ e e', Agrees ([] : Alist T) next r.1 e' e →
        (M.Holds nform e' ↔ M.Holds form e) := fun e e' hagree => by
      rw [h.holds]
      exact (holds_congr M.loc _ _ _ (hframe M e e' hagree)).symm
    rw [Interpretation.Holds, M.forAll_iff, M.forAll_iff]
    constructor
    · intro hall e he
      obtain ⟨e', he', hagree⟩ := hforth e he
      exact (hsame e e' hagree).1 (hall e' he')
    · intro hall e' he'
      obtain ⟨e, he, hagree⟩ := hback e' he'
      exact (hsame e e' hagree).2 (hall e he)
  · rw [Interpretation.Meaningful, M.forAll_iff]
    intro e' he'
    obtain ⟨e, he, hagree⟩ := (h.run.assigns (hagrees M env)).2 e' he'
    refine h.meaningful M e' ((meaningful_congr M.loc _ _ _ (hframe M e e' hagree)).1 ?_)
    exact M.forAll_iff.1 hmeaningful e he
  · intro u hu
    obtain ⟨w, hw, rfl⟩ := h.run.freesList h.frees u hu
    have hcases : ∀ u, (∃ d ∈ form.freevars, d.uid = u) →
        (∃ b ∈ vars, b.uid = u) ∨ u ∈ { u | ∃ d ∈ Q.keepUnbound, d.uid = u } := by
      rintro u ⟨d, hd, rfl⟩
      cases hkeep : memDecl d Q.keepUnbound with
      | false => exact .inl ⟨d, (hvars d).2 ⟨hd, hkeep⟩, rfl⟩
      | true => exact .inr (memDecl_iff.1 hkeep)
    exact freesList_subset horder
      (fun b hb u hu => hcases u (hok.closed b ((hvars b).1 hb).1 u hu))
      (fun u hu => hcases u (hfree u hu)) hw

/-- A formula under bindings may be one under more bindings. -/
theorem ClosureResult.flatten {nbs bs : List (Binding T)} {f : Formula T}
    (h : ClosureResult Q form vars (.forAll nbs (.forAll bs f))) :
    ClosureResult Q form vars (.forAll (nbs ++ bs) f) := by
  refine ⟨h.vars, fun M env => ?_, fun M env hmeaningful => ?_, fun u hu => h.closed u ?_⟩
  · rw [← h.holds]
    exact forAll_append
  · exact forAll_append.2 (h.meaningful M env hmeaningful)
  · rw [Formula.frees, freesList_append] at hu
    exact hu

theorem ClosureRun.insert (hok : ClosureOk form next) {bs : List (Binding T)} {f : Formula T}
    (h : ClosureRun Q form (.forAll bs f) next vars nbs r) (horder : InOrder vars)
    (hvars : ∀ v ∈ vars, v ∈ form.freevars) (hnodup : (vars.map Decl.uid).Nodup) :
    insertBindings nbs.reverse bs = nbs ++ bs := by
  refine insertBindings_eq (h.run.nodup hnodup) (h.run.inOrder horder) fun nb hnb b hb => ?_
  have hbound : b.uid ∈ form.bound := h.bound (mem_boundList.2 (.inl ⟨b, hb, .inl rfl⟩))
  constructor
  · intro heq
    rcases h.run.uids nb hnb with ⟨v, hv, hvu⟩ | hle
    · exact (hok.free v (hvars v hv)).2 (hvu ▸ heq ▸ hbound)
    · exact Nat.not_lt.2 hle (heq ▸ hok.bound _ hbound)
  · intro hmem
    rcases h.run.tyFrees nb hnb _ hmem with ⟨v, hv, hty⟩ | hle
    · obtain ⟨e, he, heq⟩ := hok.closed v (hvars v hv) _ hty
      exact (hok.free e he).2 (heq ▸ hbound)
    · exact Nat.not_lt.2 hle (hok.bound _ hbound)

theorem closeFreevars_spec (hok : ClosureOk form next) (hnodup : (vars.map Decl.uid).Nodup)
    (horder : InOrder vars)
    (hvars : ∀ d, d ∈ vars ↔ d ∈ form.freevars ∧ memDecl d Q.keepUnbound = false) :
    ClosureResult Q form vars (closeFreevars Q form vars next) := by
  have hfree : ∀ v ∈ vars, v ∈ form.freevars := fun v hv => ((hvars v).1 hv).1
  obtain ⟨r, hrun⟩ := closureRun (Q := Q) hok hfree hnodup
  have hresult := hrun.result hok horder hvars
  rw [closeFreevars]
  split_ifs with hempty
  · rw [List.isEmpty_iff.1 hempty] at hvars ⊢
    refine ⟨hvars, fun M env => Iff.rfl, fun M env => id, fun u hu => ?_⟩
    obtain ⟨d, hd, rfl⟩ := (Formula.mem_freevars (hok.apart u hu)).2 hu
    refine memDecl_iff.1 (Bool.not_eq_false _ ▸ fun hkeep => ?_)
    cases (hvars d).2 ⟨hd, hkeep⟩
  · dsimp only
    generalize varToBinding Q vars form next = p at hrun hresult
    generalize (if p.2 = true then freevarSubstit Q form vars p.1 else form) = nform at hrun hresult
    split
    · rw [hrun.insert hok horder hfree hnodup]
      exact hresult.flatten
    · exact hresult

theorem universalClosure_spec (hok : ClosureOk form next) :
    ∃ fvs closure, sortFreevars (form.freevars.filter fun x => !memDecl x Q.keepUnbound) = some fvs ∧
      universalClosure Q form next = some closure ∧ ClosureResult Q form fvs closure := by
  have hsub : (form.freevars.filter fun x => !memDecl x Q.keepUnbound).Sublist form.freevars :=
    List.filter_sublist
  obtain ⟨fvs, hfvs, hmem, hnodup, horder⟩ := sortFreevars_spec _
    (form.nodup_freevars.sublist (hsub.map _)) fun d hd => hok.older d (hsub.subset hd)
  refine ⟨fvs, _, hfvs, by rw [universalClosure, hfvs]; rfl, ?_⟩
  refine closeFreevars_spec hok hnodup horder fun d => (hmem d).trans ?_
  rw [List.mem_filter, Bool.not_eq_true']

end ClosureSpec

end PVS.TccGen
