import PVS.Assert.NestedUpdatesValue

/-! Updates of record literals and of constructor applications. -/

namespace PVS.Assert

open Library Components

variable {I C B V W R Env : Type} {M : UpdMeaning I C B V W R Env} (T : TcEq M)

namespace TcEq

/-! ### One field -/

theorem finalOverride_eq_some {E : Type} {ms : List (List (Arg I) × E)} {x : E}
    (h : finalOverride ms.reverse = some x) :
    ∃ before after, ms = before ++ ([], x) :: after ∧ ∀ m ∈ after, m.1 ≠ [] := by
  obtain ⟨⟨p, y⟩, hfind, rfl⟩ := Option.map_eq_some_iff.1 h
  obtain ⟨hp, as, bs, hms, has⟩ := List.find?_eq_some_iff_append.1 hfind
  obtain rfl : p = [] := List.isEmpty_iff.1 hp
  refine ⟨bs.reverse, as.reverse, ?_, fun m hm hnil => ?_⟩
  · rw [← List.reverse_reverse ms, hms]
    simp
  · have hm := has m (List.mem_reverse.1 hm)
    rw [hnil] at hm
    cases hm

theorem finalOverride_eq_none {E : Type} {ms : List (List (Arg I) × E)}
    (h : finalOverride ms.reverse = none) : ∀ m ∈ ms, m.1 ≠ [] := by
  rw [finalOverride, Option.map_eq_none_iff, List.find?_eq_none] at h
  intro m hm hnil
  exact h m (List.mem_reverse.2 hm) (by rw [hnil]; rfl)

/-- The expression of a field after `make-updated-assign-expr`. -/
inductive UpdatedField (outer : List (Assignment I (UpdExpr I C B))) (f : ℕ)
    (e : UpdExpr I C B) : UpdExpr I C B → Prop where
  | same (h : T.matching (.name f) outer = []) : UpdatedField outer f e e
  | final {before after : List (List (Arg I) × UpdExpr I C B)} {x : UpdExpr I C B}
      (h : T.matching (.name f) outer = before ++ ([], x) :: after)
      (hafter : ∀ m ∈ after, m.1 ≠ []) : UpdatedField outer f e x
  | curried {e' : UpdExpr I C B} (hne : T.matching (.name f) outer ≠ [])
      (h : ∀ m ∈ T.matching (.name f) outer, m.1 ≠ [])
      (he : T.simplifyNestedUpdates e (makeAssignments (T.matching (.name f) outer)) = some e') :
      UpdatedField outer f e e'

theorem updateAssigns_spec {as new : List (ℕ × UpdExpr I C B)}
    {outer : List (Assignment I (UpdExpr I C B))} (h : T.updateAssigns as outer = some new) :
    List.Forall₂ (fun f f' => f'.1 = f.1 ∧ T.UpdatedField outer f.1 f.2 f'.2) as new := by
  induction as generalizing new with
  | nil =>
    rw [updateAssigns, Option.some.injEq] at h
    exact h ▸ .nil
  | cons f as ih =>
    obtain ⟨f, e⟩ := f
    rw [updateAssigns] at h
    split at h
    · rename_i x l' hx hl
      obtain rfl := Option.some.inj h
      refine .cons ⟨rfl, ?_⟩ (ih hl)
      split at hx
      · rename_i hempty
        obtain rfl := Option.some.inj hx
        exact .same (by simpa using hempty)
      · rename_i hempty
        split at hx
        · rename_i y hy
          obtain rfl := Option.some.inj hx
          obtain ⟨before, after, hms, hafter⟩ := finalOverride_eq_some hy
          exact .final hms hafter
        · rename_i hy
          rw [List.reverse_reverse] at hx
          exact .curried (by simpa using hempty) (finalOverride_eq_none hy) hx
    · cases h

variable (M) in
/-- What the update of one field keeps, `P` being what its own expression keeps. -/
structure FieldOk (P : UpdExpr I C B → List (Assignment I (UpdExpr I C B)) → Prop)
    (e : UpdExpr I C B) (ms : List (List (Arg I) × UpdExpr I C B)) : Prop where
  complete : ∀ before x after, ms = before ++ ([], x) :: after → (∀ m ∈ after, m.1 ≠ []) →
    ∀ ρ, M.comps.override (M.eval ρ x) (M.evalMatching ρ after) = M.eval ρ x
  curried : ms ≠ [] → (∀ m ∈ ms, m.1 ≠ []) → P e (makeAssignments ms)

theorem not_curried {ms before after : List (List (Arg I) × UpdExpr I C B)} {x : UpdExpr I C B}
    (hms : ms = before ++ ([], x) :: after) (h : ∀ m ∈ ms, m.1 ≠ []) : False :=
  h ([], x) (by rw [hms]; simp) rfl

/-- The last complete assignment is the only one with no complete assignment after it. -/
theorem complete_unique {before before' after after' : List (List (Arg I) × UpdExpr I C B)}
    {x x' : UpdExpr I C B} (h : before ++ ([], x) :: after = before' ++ ([], x') :: after')
    (hafter : ∀ m ∈ after, m.1 ≠ []) (hafter' : ∀ m ∈ after', m.1 ≠ []) :
    x = x' ∧ after = after' := by
  obtain ⟨w, -, hw⟩ | ⟨w, -, hw⟩ := List.append_eq_append_iff.1 h
  · cases w with
    | nil =>
      obtain ⟨hhead, htail⟩ := List.cons.inj hw
      exact ⟨(Prod.mk.inj hhead).2, htail⟩
    | cons m w =>
      exact (not_curried (List.cons.inj hw).2 hafter).elim
  · cases w with
    | nil =>
      obtain ⟨hhead, htail⟩ := List.cons.inj hw
      exact ⟨(Prod.mk.inj hhead).2.symm, htail.symm⟩
    | cons m w =>
      exact (not_curried (List.cons.inj hw).2 hafter').elim

theorem field_value_iff {P : UpdExpr I C B → List (Assignment I (UpdExpr I C B)) → Prop}
    {outer : List (Assignment I (UpdExpr I C B))} {f : ℕ} {e e' : UpdExpr I C B}
    (h : T.UpdatedField outer f e e')
    (ih : T.matching (.name f) outer ≠ [] →
      T.simplifyNestedUpdates e (makeAssignments (T.matching (.name f) outer)) = some e' →
      ((∀ ρ, M.eval ρ e' = M.comps.override (M.eval ρ e)
          (M.evalAssignments ρ (makeAssignments (T.matching (.name f) outer)))) ↔
        P e (makeAssignments (T.matching (.name f) outer)))) :
    (∀ ρ, M.eval ρ e' =
        M.comps.override (M.eval ρ e) (M.evalMatching ρ (T.matching (.name f) outer))) ↔
      FieldOk M P e (T.matching (.name f) outer) := by
  cases h with
  | same h =>
    rw [h]
    refine iff_of_true (fun ρ => rfl) ⟨fun before x after hms => ?_, fun hne => absurd rfl hne⟩
    cases before <;> cases hms
  | final h hafter =>
    rename_i before after
    constructor
    · intro hvalue
      refine ⟨fun before' x' after' hms hafter' ρ => ?_, fun _ hcurried => ?_⟩
      · obtain ⟨rfl, rfl⟩ := complete_unique (h.symm.trans hms) hafter hafter'
        rw [← evalMatching_complete ρ before _ _ (M.eval ρ e), ← h, ← hvalue ρ]
      · exact (not_curried h hcurried).elim
    · intro hok ρ
      rw [h, evalMatching_complete]
      exact (hok.complete before e' after h hafter ρ).symm
  | curried hne hcurried he =>
    have hih := ih hne he
    simp only [M.evalAssignments_makeAssignments _ hcurried] at hih
    rw [hih]
    constructor
    · intro hP
      exact ⟨fun before x after hms _ => (not_curried hms hcurried).elim, fun _ _ => hP⟩
    · intro hok
      exact hok.curried hne hcurried

/-! ### The fields of a record -/

/-- The expression that a field has in a literal. -/
def LastField (f : ℕ) (e : UpdExpr I C B) (as : List (ℕ × UpdExpr I C B)) : Prop :=
  ∃ l1 l2, as = l1 ++ (f, e) :: l2 ∧ f ∉ l2.map (·.1)

theorem lastField_or_not_mem (f : ℕ) (as : List (ℕ × UpdExpr I C B)) :
    (∃ e, LastField f e as) ∨ f ∉ as.map (·.1) := by
  induction as with
  | nil => exact .inr (by simp)
  | cons a as ih =>
    obtain ⟨g, e⟩ := a
    obtain ⟨e', l1, l2, rfl, hl2⟩ | hnot := ih
    · exact .inl ⟨e', (g, e) :: l1, l2, rfl, hl2⟩
    · by_cases hg : f = g
      · exact .inl ⟨e, [], as, by rw [hg]; rfl, hnot⟩
      · exact .inr (by rw [List.map_cons, List.mem_cons, not_or]; exact ⟨hg, hnot⟩)

theorem map_fst_of_forall₂ {r : ℕ × UpdExpr I C B → ℕ × UpdExpr I C B → Prop}
    {as new : List (ℕ × UpdExpr I C B)}
    (h : List.Forall₂ (fun f f' => f'.1 = f.1 ∧ r f f') as new) :
    new.map (·.1) = as.map (·.1) := by
  induction h with
  | nil => rfl
  | cons h _ ih => rw [List.map_cons, List.map_cons, ih, h.1]

theorem lastField_of_forall₂ {r : ℕ × UpdExpr I C B → ℕ × UpdExpr I C B → Prop}
    {as new : List (ℕ × UpdExpr I C B)}
    (h : List.Forall₂ (fun f f' => f'.1 = f.1 ∧ r f f') as new) {f : ℕ} {e : UpdExpr I C B}
    (hlast : LastField f e as) : ∃ e', LastField f e' new ∧ r (f, e) (f, e') := by
  obtain ⟨l1, l2, heq, hl2⟩ := hlast
  induction h generalizing l1 with
  | nil => cases l1 <;> cases heq
  | cons h htail ih =>
    rename_i a a' as new
    cases l1 with
    | nil =>
      obtain ⟨rfl, rfl⟩ := List.cons.inj heq
      obtain ⟨g, e'⟩ := a'
      obtain ⟨rfl, hr⟩ := h
      exact ⟨e', ⟨[], new, rfl, map_fst_of_forall₂ htail ▸ hl2⟩, hr⟩
    | cons b l1 =>
      obtain ⟨e', ⟨n1, n2, rfl, hn2⟩, hr⟩ := ih l1 (List.cons.inj heq).2
      exact ⟨e', ⟨a' :: n1, n2, rfl, hn2⟩, hr⟩

variable (ρ : Env)

theorem under_evalFields_of_not_mem [DecidableEq W] {f : ℕ} {as : List (ℕ × UpdExpr I C B)}
    (h : f ∉ as.map (·.1)) : under (.name f) (M.evalFields ρ as) = [] := by
  rw [UpdMeaning.evalFields_eq_map, under, List.filterMap_map, List.filterMap_eq_nil_iff]
  intro a ha
  have hne : a.1 ≠ f := fun heq => h (heq ▸ List.mem_map_of_mem ha)
  simp [hne]

theorem under_evalFields_of_ne [DecidableEq W] {k : Key W} (h : ∀ f, k ≠ .name f)
    (as : List (ℕ × UpdExpr I C B)) : under k (M.evalFields ρ as) = [] := by
  rw [UpdMeaning.evalFields_eq_map, under, List.filterMap_map, List.filterMap_eq_nil_iff]
  intro a _
  simp [(h a.1).symm]

theorem override_under_evalFields [DecidableEq W] {f : ℕ} {e : UpdExpr I C B} {as : List (ℕ × UpdExpr I C B)}
    (h : LastField f e as) (v : V) (l : List (List (Key W) × V)) :
    M.comps.override v (under (.name f) (M.evalFields ρ as) ++ l) =
      M.comps.override (M.eval ρ e) l := by
  obtain ⟨l1, l2, rfl, hl2⟩ := h
  have hlast : under (.name f) (M.evalFields ρ (l1 ++ (f, e) :: l2)) =
      under (.name f) (M.evalFields ρ l1) ++ ([], M.eval ρ e) :: [] := by
    have h2 := under_evalFields_of_not_mem (M := M) ρ hl2
    rw [UpdMeaning.evalFields_eq_map] at h2 ⊢
    rw [List.map_append, List.map_cons, under_append, ← UpdMeaning.evalFields_eq_map]
    refine congrArg _ ?_
    rw [under, List.filterMap_cons_some (b := ([], M.eval ρ e)) (by simp)]
    exact congrArg _ h2
  rw [hlast, List.append_assoc]
  exact override_replace _ _ _ _

/-- Only the assignments that begin with the key matter. -/
theorem under_evalAssignments_filter [DecidableEq W] {k : Key W} {q : Assignment I (UpdExpr I C B) → Bool}
    {outer : List (Assignment I (UpdExpr I C B))}
    (h : ∀ a ∈ outer, M.key ρ a.first = k → q a = true) :
    under k (M.evalAssignments ρ (outer.filter q)) = under k (M.evalAssignments ρ outer) := by
  induction outer with
  | nil => rfl
  | cons a outer ih =>
    obtain ⟨first, rest, e⟩ := a
    rw [List.forall_mem_cons] at h
    rw [List.filter_cons]
    by_cases hk : M.key ρ first = k
    · rw [if_pos (h.1 hk), UpdMeaning.evalAssignments, UpdMeaning.evalAssignments]
      simp only [under, List.filterMap_cons, hk, if_true]
      exact congrArg _ (ih h.2)
    · have hskip : under k (M.evalAssignments ρ (⟨first, rest, e⟩ :: outer)) =
          under k (M.evalAssignments ρ outer) := by
        rw [UpdMeaning.evalAssignments]
        simp [under, hk]
      rw [hskip, ← ih h.2]
      split
      · rw [UpdMeaning.evalAssignments]
        simp [under, hk]
      · rfl

theorem under_evalAssignments_eq_nil [DecidableEq W] {k : Key W} {outer : List (Assignment I (UpdExpr I C B))}
    (h : ∀ a ∈ outer, M.key ρ a.first ≠ k) : under k (M.evalAssignments ρ outer) = [] := by
  rw [UpdMeaning.evalAssignments_eq_map, under, List.filterMap_map, List.filterMap_eq_nil_iff]
  intro a ha
  simp [Assignment.arguments, h a ha]

theorem matching_filter {b : Arg I} {q : Assignment I (UpdExpr I C B) → Bool}
    {q' : List (Arg I) × UpdExpr I C B → Bool} {outer : List (Assignment I (UpdExpr I C B))}
    (h : ∀ a ∈ outer, T.arg b a.first = true → q a = q' (a.rest, a.expression)) :
    T.matching b (outer.filter q) = (T.matching b outer).filter q' := by
  rw [matching_eq_rests, matching_eq_rests, rests, rests, List.filter_map, List.filter_filter,
    List.filter_filter]
  refine congrArg _ (List.filter_congr fun a ha => ?_)
  cases harg : T.arg b a.first with
  | false => simp
  | true => simp [h a ha harg]

theorem evalFields_of_fieldAssigns {l : List (Assignment I (UpdExpr I C B))}
    {fields : List (ℕ × UpdExpr I C B)} (h : fieldAssigns l = some fields)
    (hrest : ∀ a ∈ l, a.rest = []) : M.evalFields ρ fields = M.evalAssignments ρ l := by
  induction l generalizing fields with
  | nil =>
    rw [fieldAssigns, Option.some.injEq] at h
    exact h ▸ rfl
  | cons a l ih =>
    obtain ⟨first, rest, e⟩ := a
    rw [List.forall_mem_cons] at hrest
    obtain rfl : rest = [] := hrest.1
    cases first with
    | name f =>
      obtain ⟨fs, hfs, rfl⟩ := Option.map_eq_some_iff.1 h
      rw [UpdMeaning.evalFields, UpdMeaning.evalAssignments, ih hfs hrest.2]
      rfl
    | proj n => cases h
    | index i => cases h

theorem first_of_fieldAssigns {E : Type} {l : List (Assignment I E)} {fields : List (ℕ × E)}
    (h : fieldAssigns l = some fields) : ∀ a ∈ l, ∃ f, a.first = .name f := by
  induction l generalizing fields with
  | nil => simp
  | cons a l ih =>
    obtain ⟨first, rest, e⟩ := a
    cases first with
    | name f =>
      obtain ⟨fs, hfs, -⟩ := Option.map_eq_some_iff.1 h
      exact List.forall_mem_cons.2 ⟨⟨f, rfl⟩, ih hfs⟩
    | proj n => cases h
    | index i => cases h

/-- The assignments that are left, those to whole fields first. -/
def reordered (as : List (ℕ × UpdExpr I C B)) (outer : List (Assignment I (UpdExpr I C B))) :
    List (Assignment I (UpdExpr I C B)) :=
  (T.collectNewOuterAssigns as outer).filter (fun a => a.rest.isEmpty) ++
    (T.collectNewOuterAssigns as outer).filter fun a => !a.rest.isEmpty

theorem arg_name_true_iff (f : ℕ) (b : Arg I) : T.arg (.name f) b = true ↔ b = .name f := by
  cases b <;> simp [arg, eq_comm]

theorem mem_collectNewOuterAssigns {as : List (ℕ × UpdExpr I C B)}
    {outer : List (Assignment I (UpdExpr I C B))} {a : Assignment I (UpdExpr I C B)} :
    a ∈ T.collectNewOuterAssigns as outer ↔
      a ∈ outer ∧ ∀ f ∈ as.map (·.1), a.first ≠ .name f := by
  have harg : ∀ f, (T.matchUpdateArgsPrefix [.name f] a.arguments).isSome = true ↔
      a.first = .name f := by
    intro f
    rw [Assignment.arguments, matchUpdateArgsPrefix, ← T.arg_name_true_iff f]
    split
    · rename_i h
      rw [matchUpdateArgsPrefix, h, Option.isSome_some]
    · rename_i h
      simp [h]
  rw [collectNewOuterAssigns, List.mem_filter, Bool.not_eq_true', List.any_eq_false,
    List.forall_mem_map]
  exact and_congr_right fun _ => forall₂_congr fun f _ => not_congr (harg f.1)

/-- The record that is returned has the new expressions, and then the assignments that are left. -/
theorem eval_record_of_eq_some {as : List (ℕ × UpdExpr I C B)}
    {outer : List (Assignment I (UpdExpr I C B))} {r : UpdExpr I C B}
    (h : T.simplifyNestedUpdates (.record as) outer = some r) :
    ∃ new, T.updateAssigns as outer = some new ∧
      (∀ ρ, M.eval ρ r = M.comps.override M.emptyRecord
        (M.evalFields ρ new ++ M.evalAssignments ρ (T.reordered as outer))) ∧
      ∀ a ∈ T.collectNewOuterAssigns as outer, a.rest = [] → ∃ f, a.first = .name f := by
  rw [simplifyNestedUpdates] at h
  split at h
  · cases h
  rename_i new hnew
  dsimp only at h
  split at h
  · cases h
  rename_i inner hinner
  refine ⟨new, hnew, fun ρ => ?_, fun a ha hrest => ?_⟩
  · have hrecord : M.eval ρ (.record (new ++ inner)) = M.comps.override M.emptyRecord
        (M.evalFields ρ new ++ M.evalFields ρ inner) := by
      rw [UpdMeaning.eval, UpdMeaning.evalFields_eq_map, UpdMeaning.evalFields_eq_map,
        UpdMeaning.evalFields_eq_map, List.map_append]
    rw [evalFields_of_fieldAssigns ρ hinner fun a ha =>
      List.isEmpty_iff.1 (List.mem_filter.1 ha).2] at hrecord
    rw [reordered, UpdMeaning.evalAssignments_append, ← List.append_assoc, override_append,
      ← hrecord]
    split at h
    · rename_i hempty
      rw [List.isEmpty_iff.1 hempty, ← Option.some.inj h]
      rfl
    · rw [← Option.some.inj h, UpdMeaning.eval_update]
  · exact first_of_fieldAssigns hinner a (List.mem_filter.2 ⟨ha, by rw [hrest]; rfl⟩)

theorem matching_reordered_of_mem {as : List (ℕ × UpdExpr I C B)} {f : ℕ}
    (hf : f ∈ as.map (·.1)) (outer : List (Assignment I (UpdExpr I C B))) :
    T.matching (.name f) (T.reordered as outer) = [] := by
  rw [matching_eq_rests, rests, List.map_eq_nil_iff, List.filter_eq_nil_iff]
  intro a ha harg
  have hmem : a ∈ T.collectNewOuterAssigns as outer := by
    obtain ha | ha := List.mem_append.1 ha
    all_goals exact (List.mem_filter.1 ha).1
  exact (T.mem_collectNewOuterAssigns.1 hmem).2 f hf ((T.arg_name_true_iff f _).1 harg)

theorem matching_append (b : Arg I) (l l' : List (Assignment I (UpdExpr I C B))) :
    T.matching b (l ++ l') = T.matching b l ++ T.matching b l' :=
  List.filterMap_append

theorem matching_reordered_of_not_mem {as : List (ℕ × UpdExpr I C B)} {f : ℕ}
    (hf : f ∉ as.map (·.1)) (outer : List (Assignment I (UpdExpr I C B))) :
    T.matching (.name f) (T.reordered as outer) =
      (T.matching (.name f) outer).filter (fun m => m.1.isEmpty) ++
        (T.matching (.name f) outer).filter fun m => !m.1.isEmpty := by
  have hnew : T.matching (.name f) (T.collectNewOuterAssigns as outer) =
      T.matching (.name f) outer := by
    have hfilter : T.matching (.name f) (T.collectNewOuterAssigns as outer) =
        (T.matching (.name f) outer).filter fun _ => true := by
      refine T.matching_filter fun a ha harg => ?_
      have hmem : a ∈ T.collectNewOuterAssigns as outer := by
        refine T.mem_collectNewOuterAssigns.2 ⟨ha, fun g hg hfirst => ?_⟩
        rw [(T.arg_name_true_iff f _).1 harg, Arg.name.injEq] at hfirst
        exact hf (hfirst ▸ hg)
      exact (List.mem_filter.1 hmem).2
    rw [hfilter, List.filter_true]
  rw [reordered, matching_append, ← hnew]
  congr 1
  · exact T.matching_filter fun a _ _ => rfl
  · exact T.matching_filter fun a _ _ => rfl

theorem under_reordered [DecidableEq W] {k : Key W} (h : ∀ f, k ≠ .name f)
    {as : List (ℕ × UpdExpr I C B)} {outer : List (Assignment I (UpdExpr I C B))}
    (hnames : ∀ a ∈ T.collectNewOuterAssigns as outer, a.rest = [] → ∃ f, a.first = .name f) :
    under k (M.evalAssignments ρ (T.reordered as outer)) = under k (M.evalAssignments ρ outer) := by
  have hkey : ∀ a : Assignment I (UpdExpr I C B), M.key ρ a.first = k → ∀ f, a.first ≠ .name f := by
    intro a ha f hf
    rw [hf] at ha
    exact h f ha.symm
  rw [reordered, UpdMeaning.evalAssignments_append, under_append,
    under_evalAssignments_eq_nil ρ (fun a ha hk => ?_), List.nil_append,
    under_evalAssignments_filter ρ fun a ha hk => ?_]
  · exact under_evalAssignments_filter ρ fun a ha hk =>
      (List.mem_filter.1 (T.mem_collectNewOuterAssigns.2 ⟨ha, fun f _ => hkey a hk f⟩)).2
  · rw [Bool.not_eq_true', List.isEmpty_eq_false_iff]
    intro hrest
    obtain ⟨f, hf⟩ := hnames a ha hrest
    exact hkey a hk f hf
  · obtain ⟨ha, hrest⟩ := List.mem_filter.1 ha
    obtain ⟨f, hf⟩ := hnames a ha (List.isEmpty_iff.1 hrest)
    exact hkey a hk f hf

/-- What the update of a record literal keeps. The assignments to a field that the literal does not
have are made with the complete ones first. -/
structure RecordOk (P : UpdExpr I C B → List (Assignment I (UpdExpr I C B)) → Prop)
    (as : List (ℕ × UpdExpr I C B)) (outer : List (Assignment I (UpdExpr I C B))) : Prop where
  field : ∀ f e, LastField f e as → FieldOk M P e (T.matching (.name f) outer)
  missing : ∀ f, f ∉ as.map (·.1) → ∀ ρ,
    M.comps.override (M.comps.get M.emptyRecord (.name f))
        (M.evalMatching ρ ((T.matching (.name f) outer).filter (fun m => m.1.isEmpty) ++
          (T.matching (.name f) outer).filter fun m => !m.1.isEmpty)) =
      M.comps.override (M.comps.get M.emptyRecord (.name f))
        (M.evalMatching ρ (T.matching (.name f) outer))

theorem record_value_iff [DecidableEq W]
    {P : UpdExpr I C B → List (Assignment I (UpdExpr I C B)) → Prop}
    {as : List (ℕ × UpdExpr I C B)} {outer : List (Assignment I (UpdExpr I C B))}
    {r : UpdExpr I C B} (h : T.simplifyNestedUpdates (.record as) outer = some r)
    (ih : ∀ f e e', T.matching (.name f) outer ≠ [] →
      T.simplifyNestedUpdates e (makeAssignments (T.matching (.name f) outer)) = some e' →
      ((∀ ρ, M.eval ρ e' = M.comps.override (M.eval ρ e)
          (M.evalAssignments ρ (makeAssignments (T.matching (.name f) outer)))) ↔
        P e (makeAssignments (T.matching (.name f) outer)))) :
    (∀ ρ, M.eval ρ r = M.comps.override (M.eval ρ (.record as)) (M.evalAssignments ρ outer)) ↔
      T.RecordOk P as outer := by
  obtain ⟨new, hnew, hr, hnames⟩ := T.eval_record_of_eq_some h
  have hfields := T.updateAssigns_spec hnew
  -- the values are compared one component at a time
  have hvalue : ∀ ρ, M.eval ρ r =
        M.comps.override (M.eval ρ (.record as)) (M.evalAssignments ρ outer) ↔
      ∀ k, M.comps.override (M.comps.get M.emptyRecord k) (under k (M.evalFields ρ new) ++
          under k (M.evalAssignments ρ (T.reordered as outer))) =
        M.comps.override (M.comps.get M.emptyRecord k) (under k (M.evalFields ρ as) ++
          under k (M.evalAssignments ρ outer)) := by
    intro ρ
    have hinner : ∀ (fs : List (ℕ × UpdExpr I C B)) (l : List (Assignment I (UpdExpr I C B))),
        Inner (M.evalFields ρ fs ++ M.evalAssignments ρ l) := fun fs l a ha =>
      (List.mem_append.1 ha).elim (M.inner_evalFields ρ fs a) (M.inner_evalAssignments ρ l a)
    rw [hr, UpdMeaning.eval, ← override_append, override_eq_iff (hinner _ _) (hinner _ _) rfl]
    simp only [under_append]
  have hfield : ∀ ρ f e e', LastField f e as → LastField f e' new →
      (M.comps.override (M.comps.get M.emptyRecord (.name f))
          (under (.name f) (M.evalFields ρ new) ++
            under (.name f) (M.evalAssignments ρ (T.reordered as outer))) =
        M.comps.override (M.comps.get M.emptyRecord (.name f))
          (under (.name f) (M.evalFields ρ as) ++ under (.name f) (M.evalAssignments ρ outer)) ↔
      M.eval ρ e' =
        M.comps.override (M.eval ρ e) (M.evalMatching ρ (T.matching (.name f) outer))) := by
    intro ρ f e e' hlast hlast'
    have hmem : f ∈ as.map (·.1) := by
      obtain ⟨l1, l2, rfl, -⟩ := hlast
      simp
    rw [override_under_evalFields ρ hlast, override_under_evalFields ρ hlast',
      T.under_evalAssignments ρ (T.arg_name_iff ρ f), T.under_evalAssignments ρ (T.arg_name_iff ρ f),
      T.matching_reordered_of_mem hmem]
    rfl
  have hmissing : ∀ ρ f, f ∉ as.map (·.1) →
      under (.name f) (M.evalFields ρ new) ++
          under (.name f) (M.evalAssignments ρ (T.reordered as outer)) =
        M.evalMatching ρ ((T.matching (.name f) outer).filter (fun m => m.1.isEmpty) ++
          (T.matching (.name f) outer).filter fun m => !m.1.isEmpty) ∧
      under (.name f) (M.evalFields ρ as) ++ under (.name f) (M.evalAssignments ρ outer) =
        M.evalMatching ρ (T.matching (.name f) outer) := by
    intro ρ f hf
    have hf' : f ∉ new.map (·.1) := by rwa [map_fst_of_forall₂ hfields]
    rw [under_evalFields_of_not_mem ρ hf, under_evalFields_of_not_mem ρ hf',
      T.under_evalAssignments ρ (T.arg_name_iff ρ f), T.under_evalAssignments ρ (T.arg_name_iff ρ f),
      T.matching_reordered_of_not_mem hf]
    exact ⟨rfl, rfl⟩
  rw [forall_congr' hvalue]
  constructor
  · intro hall
    refine ⟨fun f e hlast => ?_, fun f hf ρ => ?_⟩
    · obtain ⟨e', hlast', hupd⟩ := lastField_of_forall₂ hfields hlast
      rw [← T.field_value_iff hupd (ih f e e')]
      exact fun ρ => (hfield ρ f e e' hlast hlast').1 (hall ρ (.name f))
    · obtain ⟨hleft, hright⟩ := hmissing ρ f hf
      rw [← hleft, ← hright]
      exact hall ρ (.name f)
  · intro hok ρ k
    by_cases hname : ∃ f, k = .name f
    · obtain ⟨f, rfl⟩ := hname
      obtain ⟨e, hlast⟩ | hf := lastField_or_not_mem f as
      · obtain ⟨e', hlast', hupd⟩ := lastField_of_forall₂ hfields hlast
        rw [hfield ρ f e e' hlast hlast']
        exact (T.field_value_iff hupd (ih f e e')).2 (hok.field f e hlast) ρ
      · obtain ⟨hleft, hright⟩ := hmissing ρ f hf
        rw [hleft, hright]
        exact hok.missing f hf ρ
    · have hk : ∀ f, k ≠ .name f := fun f hf => hname ⟨f, hf⟩
      rw [under_evalFields_of_ne ρ hk, under_evalFields_of_ne ρ hk, T.under_reordered ρ hk hnames]

end TcEq

end PVS.Assert
