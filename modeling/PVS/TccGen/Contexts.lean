import PVS.TccGen.Groups

/-! Conditions around a conclusion. -/

namespace PVS.TccGen

variable {T : Terms}

/-! ### What conditions mean -/

namespace Interpretation

variable (M : Interpretation T)

/-- For all values of the bindings, if every condition holds; the conditions are outermost first. -/
def HoldsUnder : List (Condition T) → ((ℕ → M.Val) → Prop) → (ℕ → M.Val) → Prop
  | [], P, env => P env
  | .binding b :: cs, P, env =>
    ∀ v ∈ M.ty b.type env, HoldsUnder cs P (Function.update env b.uid v)
  | .formula f :: cs, P, env => M.Holds f env → HoldsUnder cs P env

/-- Each condition is well typed given those outside of it. -/
def MeaningfulUnder : List (Condition T) → ((ℕ → M.Val) → Prop) → (ℕ → M.Val) → Prop
  | [], P, env => P env
  | .binding b :: cs, P, env =>
    ∀ v ∈ M.ty b.type env, MeaningfulUnder cs P (Function.update env b.uid v)
  | .formula f :: cs, P, env => M.Meaningful f env ∧ (M.Holds f env → MeaningfulUnder cs P env)

variable {M}

theorem holdsUnder_append {cs ds : List (Condition T)} {P : (ℕ → M.Val) → Prop} {env : ℕ → M.Val} :
    M.HoldsUnder (cs ++ ds) P env ↔ M.HoldsUnder cs (M.HoldsUnder ds P) env := by
  induction cs generalizing env with
  | nil => rfl
  | cons c cs ih =>
    cases c with
    | binding b => exact forall₂_congr fun v _ => ih
    | formula f => exact imp_congr Iff.rfl ih

theorem meaningfulUnder_append {cs ds : List (Condition T)} {P : (ℕ → M.Val) → Prop}
    {env : ℕ → M.Val} :
    M.MeaningfulUnder (cs ++ ds) P env ↔ M.MeaningfulUnder cs (M.MeaningfulUnder ds P) env := by
  induction cs generalizing env with
  | nil => rfl
  | cons c cs ih =>
    cases c with
    | binding b => exact forall₂_congr fun v _ => ih
    | formula f => exact and_congr_right fun _ => imp_congr Iff.rfl ih

theorem holdsUnder_congr {cs : List (Condition T)} {P P' : (ℕ → M.Val) → Prop}
    (h : ∀ env, P env ↔ P' env) (env : ℕ → M.Val) : M.HoldsUnder cs P env ↔ M.HoldsUnder cs P' env := by
  rw [funext fun env => propext (h env)]

theorem meaningfulUnder_mono {cs : List (Condition T)} {P P' : (ℕ → M.Val) → Prop}
    (h : ∀ env, P env → P' env) (env : ℕ → M.Val) (hP : M.MeaningfulUnder cs P env) :
    M.MeaningfulUnder cs P' env := by
  induction cs generalizing env with
  | nil => exact h env hP
  | cons c cs ih =>
    cases c with
    | binding b => exact fun v hv => ih _ (hP v hv)
    | formula f => exact ⟨hP.1, fun hf => ih _ (hP.2 hf)⟩

theorem holdsUnder_bindings {bs : List (Binding T)} {P : (ℕ → M.Val) → Prop} {env : ℕ → M.Val} :
    M.HoldsUnder (bs.map .binding) P env ↔ M.ForAll bs P env := by
  induction bs generalizing env with
  | nil => rfl
  | cons b bs ih => exact forall₂_congr fun v _ => ih

theorem meaningfulUnder_bindings {bs : List (Binding T)} {P : (ℕ → M.Val) → Prop} {env : ℕ → M.Val} :
    M.MeaningfulUnder (bs.map .binding) P env ↔ M.ForAll bs P env := by
  induction bs generalizing env with
  | nil => rfl
  | cons b bs ih => exact forall₂_congr fun v _ => ih

theorem holdsUnder_formulas {fs : List (Formula T)} {P : (ℕ → M.Val) → Prop} {env : ℕ → M.Val} :
    M.HoldsUnder (fs.map .formula) P env ↔ ((∀ f ∈ fs, M.Holds f env) → P env) := by
  induction fs with
  | nil => simp [HoldsUnder]
  | cons f fs ih =>
    rw [List.map_cons, HoldsUnder, ih, List.forall_mem_cons, and_imp]

theorem meaningfulUnder_formulas {fs : List (Formula T)} {P : (ℕ → M.Val) → Prop}
    {env : ℕ → M.Val} : M.MeaningfulUnder (fs.map .formula) P env ↔
      M.MeaningfulAnd fs env ∧ ((∀ f ∈ fs, M.Holds f env) → P env) := by
  induction fs with
  | nil => simp [MeaningfulUnder, MeaningfulAnd]
  | cons f fs ih =>
    rw [List.map_cons, MeaningfulUnder, ih, List.forall_mem_cons, MeaningfulAnd]
    grind

/-- A condition that does not mention bindings may be moved inside of them. -/
theorem holdsUnder_move (hM : M.Local) {f : Formula T} {bs : List (Binding T)}
    (h : ∀ b ∈ bs, b.uid ∉ f.frees) {P : (ℕ → M.Val) → Prop} (env : ℕ → M.Val) :
    M.HoldsUnder (.formula f :: bs.map .binding) P env ↔
      M.HoldsUnder (bs.map .binding ++ [.formula f]) P env := by
  induction bs generalizing env with
  | nil => rfl
  | cons b bs ih =>
    rw [List.forall_mem_cons] at h
    have hf : ∀ v, M.Holds f (Function.update env b.uid v) ↔ M.Holds f env := fun v =>
      holds_congr hM f _ _ fun u hu =>
        Function.update_of_ne (fun heq : u = b.uid => h.1 (heq ▸ hu)) v env
    simp only [List.map_cons, List.cons_append, HoldsUnder, ← ih h.2]
    constructor
    · exact fun hall v hv hfv => hall ((hf v).1 hfv) v hv
    · exact fun hall hfv v hv => hall v hv ((hf v).2 hfv)

theorem meaningfulUnder_move (hM : M.Local) {f : Formula T} {bs : List (Binding T)}
    (h : ∀ b ∈ bs, b.uid ∉ f.frees) {P : (ℕ → M.Val) → Prop} (env : ℕ → M.Val)
    (hP : M.MeaningfulUnder (.formula f :: bs.map .binding) P env) :
    M.MeaningfulUnder (bs.map .binding ++ [.formula f]) P env := by
  induction bs generalizing env with
  | nil => exact hP
  | cons b bs ih =>
    rw [List.forall_mem_cons] at h
    have hsame : ∀ v, ∀ u ∈ f.frees, Function.update env b.uid v u = env u := fun v u hu =>
      Function.update_of_ne (fun heq : u = b.uid => h.1 (heq ▸ hu)) v env
    refine fun v hv => ih h.2 _ ⟨(meaningful_congr hM f _ _ (hsame v)).2 hP.1, fun hf => ?_⟩
    exact hP.2 ((holds_congr hM f _ _ (hsame v)).1 hf) v hv

end Interpretation

/-! ### How conditions are taken apart -/

theorem getTccConditionBindings_append (conditions : List (Condition T)) (bindings : List (Binding T)) :
    ((getTccConditionBindings conditions bindings).1.map Condition.binding).reverse ++
      (getTccConditionBindings conditions bindings).2 =
        (bindings.map Condition.binding).reverse ++ conditions := by
  fun_induction getTccConditionBindings conditions bindings with
  | case1 b conditions bindings ih => rw [ih]; simp
  | case2 => rfl

/-- The bindings that are passed stay, and the equations come from the conditions. -/
theorem collectLetEquations_spec (conditions : List (Condition T)) (eqns : List (Formula T))
    (bindDecls : List (Binding T)) :
    (collectLetEquations conditions eqns bindDecls).2.Sublist
      (bindDecls.reverse.map .binding ++ conditions) ∧
    (∀ f ∈ (collectLetEquations conditions eqns bindDecls).1, f ∈ eqns ∨ .formula f ∈ conditions) ∧
    ∀ b, b ∈ bindDecls ∨ .binding b ∈ conditions →
      .binding b ∈ (collectLetEquations conditions eqns bindDecls).2 := by
  fun_induction collectLetEquations conditions eqns bindDecls with
  | case1 b conditions eqns bindDecls ih =>
    refine ⟨by simpa using ih.1, fun f hf => (ih.2.1 f hf).imp_right (List.mem_cons_of_mem _),
      fun b' hb' => ih.2.2 b' ?_⟩
    rcases hb' with hb' | hb'
    · exact .inl (List.mem_cons_of_mem _ hb')
    · rcases List.mem_cons.1 hb' with heq | hb'
      · cases heq
        exact .inl List.mem_cons_self
      · exact .inr hb'
  | case2 f conditions eqns bindDecls h ih =>
    refine ⟨ih.1.trans ((List.sublist_cons_self _ _).append_left _), fun g hg => ?_,
      fun b' hb' => ih.2.2 b' ?_⟩
    · rcases ih.2.1 g hg with hmem | hmem
      · rcases List.mem_cons.1 hmem with rfl | hmem
        · exact .inr List.mem_cons_self
        · exact .inl hmem
      · exact .inr (List.mem_cons_of_mem _ hmem)
    · refine hb'.imp_right fun hmem => (List.mem_cons.1 hmem).resolve_left ?_
      rintro ⟨⟩
  | case3 f conditions eqns bindDecls h =>
    refine ⟨List.Sublist.refl _, fun g hg => .inl hg, fun b' hb' => List.mem_append.2 ?_⟩
    exact hb'.imp_left fun hmem => List.mem_map_of_mem (List.mem_reverse.2 hmem)
  | case4 eqns bindDecls =>
    refine ⟨by simp, fun g hg => .inl hg, fun b' hb' => ?_⟩
    rcases hb' with hb' | hb'
    · exact List.mem_map_of_mem (List.mem_reverse.2 hb')
    · cases hb'

def Condition.frees : Condition T → Set ℕ
  | .binding b => T.tyFrees b.type
  | .formula f => f.frees

/-- The declarations outside are known in a condition, and it binds none of them. -/
def Condition.Known (globals : List (Binding T)) : Condition T → Prop
  | .binding b => TccGen.Known globals (T.tyFreevars b.type) ∧
    ∀ g ∈ globals, b.uid ≠ g.uid ∧ b.uid ∉ T.tyFrees g.type
  | .formula f => f.Known globals

def Condition.bound : Condition T → Set ℕ
  | .binding b => T.tyBound b.type
  | .formula f => f.bound

/-- No condition mentions a binding inside of it; the conditions are innermost first. -/
def Scoped (conditions : List (Condition T)) : Prop :=
  conditions.Pairwise fun c c' => ∀ b, c = .binding b → b.uid ∉ c'.frees

theorem collectLetEquations_holds {M : Interpretation T} (hM : M.Local)
    (conditions : List (Condition T)) (eqns : List (Formula T)) (bindDecls : List (Binding T))
    (hscoped : Scoped (bindDecls.reverse.map .binding ++ conditions)) {P : (ℕ → M.Val) → Prop}
    (env : ℕ → M.Val) :
    M.HoldsUnder ((bindDecls.reverse.map Condition.binding ++ conditions).reverse ++
      eqns.map .formula) P env ↔
      M.HoldsUnder ((collectLetEquations conditions eqns bindDecls).2.reverse ++
        (collectLetEquations conditions eqns bindDecls).1.map .formula) P env := by
  fun_induction collectLetEquations conditions eqns bindDecls with
  | case1 b conditions eqns bindDecls ih =>
    rw [← ih (by simpa using hscoped)]
    simp
  | case2 f conditions eqns bindDecls h ih =>
    obtain ⟨hbs, hrest, hcross⟩ := List.pairwise_append.1 hscoped
    have hf : ∀ b ∈ bindDecls, b.uid ∉ f.frees := fun b hb =>
      hcross (.binding b) (List.mem_map_of_mem (List.mem_reverse.2 hb)) (.formula f)
        List.mem_cons_self b rfl
    rw [← ih (hscoped.sublist ((List.sublist_cons_self _ _).append_left _))]
    have hout : ∀ cs, M.HoldsUnder (conditions.reverse ++ cs) P env ↔
        M.HoldsUnder conditions.reverse (M.HoldsUnder cs P) env := fun cs =>
      Interpretation.holdsUnder_append
    simp only [List.reverse_append, List.map_reverse, List.reverse_reverse, List.reverse_cons,
      List.append_assoc, hout]
    refine Interpretation.holdsUnder_congr (fun env => ?_) env
    have hmove := Interpretation.holdsUnder_move hM hf (P := M.HoldsUnder (eqns.map .formula) P) env
    rw [← Interpretation.holdsUnder_append, ← Interpretation.holdsUnder_append] at hmove
    simpa using hmove
  | case3 f conditions eqns bindDecls h => rfl
  | case4 eqns bindDecls => simp

theorem collectLetEquations_meaningful {M : Interpretation T} (hM : M.Local)
    (conditions : List (Condition T)) (eqns : List (Formula T)) (bindDecls : List (Binding T))
    (hscoped : Scoped (bindDecls.reverse.map .binding ++ conditions)) {P : (ℕ → M.Val) → Prop}
    (env : ℕ → M.Val)
    (hP : M.MeaningfulUnder ((bindDecls.reverse.map Condition.binding ++ conditions).reverse ++
      eqns.map .formula) P env) :
    M.MeaningfulUnder ((collectLetEquations conditions eqns bindDecls).2.reverse ++
      (collectLetEquations conditions eqns bindDecls).1.map .formula) P env := by
  fun_induction collectLetEquations conditions eqns bindDecls with
  | case1 b conditions eqns bindDecls ih => exact ih (by simpa using hscoped) (by simpa using hP)
  | case2 f conditions eqns bindDecls h ih =>
    obtain ⟨hbs, hrest, hcross⟩ := List.pairwise_append.1 hscoped
    have hf : ∀ b ∈ bindDecls, b.uid ∉ f.frees := fun b hb =>
      hcross (.binding b) (List.mem_map_of_mem (List.mem_reverse.2 hb)) (.formula f)
        List.mem_cons_self b rfl
    refine ih (hscoped.sublist ((List.sublist_cons_self _ _).append_left _)) ?_
    have hout : ∀ cs, M.MeaningfulUnder (conditions.reverse ++ cs) P env ↔
        M.MeaningfulUnder conditions.reverse (M.MeaningfulUnder cs P) env := fun cs =>
      Interpretation.meaningfulUnder_append
    simp only [List.reverse_append, List.map_reverse, List.reverse_reverse, List.reverse_cons,
      List.append_assoc, hout] at hP ⊢
    refine Interpretation.meaningfulUnder_mono (fun env hP => ?_) env hP
    have hmove := Interpretation.meaningfulUnder_move hM hf
      (P := M.MeaningfulUnder (eqns.map .formula) P) env
    rw [← Interpretation.meaningfulUnder_append, ← Interpretation.meaningfulUnder_append] at hmove
    simpa using hmove (by simpa using hP)
  | case3 f conditions eqns bindDecls h => exact hP
  | case4 eqns bindDecls => simpa using hP

/-! ### The loop -/

/-- What the loop needs: the bindings are different and none is mentioned outside of it, bound
variables are different from them, and the substitutions are of bindings that are gone. -/
structure LoopOk (conditions : List (Condition T)) (expr : Formula T) (antes : List (Formula T))
    (substs : Alist T) (next : ℕ) : Prop where
  nodup : (conditions.Pairwise fun c c' => ∀ b b', c = .binding b → c' = .binding b' → b.uid ≠ b'.uid)
  scope : Scoped conditions
  own : ∀ b, .binding b ∈ conditions → b.uid ∉ T.tyFrees b.type ∧ b.uid ∈ Relevant substs next
  each : ∀ c ∈ conditions, c.frees ⊆ Relevant substs next ∧
    ∀ u ∈ c.bound, u < next ∧ ∀ b, .binding b ∈ conditions → b.uid ≠ u
  formulas : ∀ f, f = expr ∨ f ∈ antes → f.frees ⊆ Relevant substs next ∧
    ∀ u ∈ f.bound, u < next ∧ ∀ b, .binding b ∈ conditions → b.uid ≠ u
  keys : (substs.map fun entry => entry.1.uid).Nodup

section Loop

variable {Q : Checker T} {conditions : List (Condition T)} {expr : Formula T}
  {antes : List (Formula T)} {substs : Alist T} {next : ℕ}

/-- Conditions become antecedents. -/
theorem LoopOk.antecedents (h : LoopOk conditions expr antes substs next)
    {rest : List (Condition T)} (hrest : rest.Sublist conditions) {antes' : List (Formula T)}
    (hantes : ∀ f ∈ antes', f ∈ antes ∨ .formula f ∈ conditions) :
    LoopOk rest expr antes' substs next where
  nodup := h.nodup.sublist hrest
  scope := h.scope.sublist hrest
  own b hb := h.own b (hrest.subset hb)
  each c hc := by
    obtain ⟨hfrees, hbound⟩ := h.each c (hrest.subset hc)
    exact ⟨hfrees, fun u hu => ⟨(hbound u hu).1, fun b hb => (hbound u hu).2 b (hrest.subset hb)⟩⟩
  formulas f hf := by
    have hf' : f.frees ⊆ Relevant substs next ∧
        ∀ u ∈ f.bound, u < next ∧ ∀ b, .binding b ∈ conditions → b.uid ≠ u := by
      rcases hf with rfl | hf
      · exact h.formulas f (.inl rfl)
      · rcases hantes f hf with hf | hf
        · exact h.formulas f (.inr hf)
        · exact h.each _ hf
    exact ⟨hf'.1, fun u hu => ⟨(hf'.2 u hu).1, fun b hb => (hf'.2 u hu).2 b (hrest.subset hb)⟩⟩
  keys := h.keys

theorem LoopOk.implication (h : LoopOk conditions expr antes substs next) :
    (tccImplication Q antes expr).frees ⊆ Relevant substs next ∧
      ∀ u ∈ (tccImplication Q antes expr).bound, u < next ∧
        ∀ b, .binding b ∈ conditions → b.uid ≠ u := by
  constructor
  · exact (partWise_frees _).tccImplication (fun f hf => (h.formulas f (.inr hf)).1)
      (h.formulas expr (.inl rfl)).1
  · exact (partWise_bound { u | u < next ∧ ∀ b, Condition.binding b ∈ conditions →
      b.uid ≠ u }).tccImplication
      (fun f hf => (h.formulas f (.inr hf)).2) (h.formulas expr (.inl rfl)).2

theorem not_mem_freesList {bs : List (Binding T)} {S : Set ℕ}
    (hscoped : bs.Pairwise fun b b' => b'.uid ∉ T.tyFrees b.type)
    (hown : ∀ b ∈ bs, b.uid ∉ T.tyFrees b.type) : ∀ b ∈ bs, b.uid ∉ freesList bs S := by
  induction bs with
  | nil => simp
  | cons b bs ih =>
    obtain ⟨hb, hbs⟩ := List.pairwise_cons.1 hscoped
    rw [List.forall_mem_cons] at hown ⊢
    constructor
    · rintro (hfree | ⟨-, hne⟩)
      · exact hown.1 hfree
      · exact hne rfl
    · rintro b' hb' (hfree | ⟨hfree, -⟩)
      · exact hb b' hb' hfree
      · exact ih hbs hown.2 b' hb' hfree

/-- The bindings at the front, outermost first. -/
theorem LoopOk.group {bs : List (Binding T)} {rest : List (Condition T)}
    (h : LoopOk ((bs.map .binding).reverse ++ rest) expr antes substs next) :
    GroupOk substs next ∅ bs ∧ ∀ S, ∀ b ∈ bs, b.uid ∉ freesList bs S := by
  have hmem : ∀ b ∈ bs, Condition.binding b ∈ (bs.map .binding).reverse ++ rest := fun b hb =>
    List.mem_append_left _ (List.mem_reverse.2 (List.mem_map_of_mem hb))
  have hpairs := (List.pairwise_append.1 h.nodup).1
  have hscoped := (List.pairwise_append.1 h.scope).1
  rw [List.pairwise_reverse, List.pairwise_map] at hpairs hscoped
  refine ⟨⟨?_, fun b hb => ?_, fun b hb u hu => ?_⟩, fun S => ?_⟩
  · rw [List.Nodup, List.pairwise_map]
    exact hpairs.imp fun hne => (hne _ _ rfl rfl).symm
  · exact ⟨(h.own b (hmem b hb)).2, id, (h.each _ (hmem b hb)).1⟩
  · obtain ⟨hlt, hne⟩ := (h.each _ (hmem b hb)).2 u hu
    exact ⟨hlt, id, fun b' hb' => hne b' (hmem b' hb')⟩
  · exact not_mem_freesList (hscoped.imp fun hne => hne _ rfl) fun b hb => (h.own b (hmem b hb)).1

/-- What is left of the loop after a group. -/
theorem LoopOk.rest {bs : List (Binding T)} {rest : List (Condition T)}
    (h : LoopOk ((bs.map .binding).reverse ++ rest) expr antes substs next) {nexpr : Formula T}
    {r : Alist T × ℕ} (hrenames : Renames substs next { u | ∃ b ∈ bs, b.uid = u } r.1 r.2)
    (hle : next ≤ r.2)
    (hresult : GroupResult Q substs next bs (tccImplication Q antes expr) nexpr r.1 r.2) :
    LoopOk rest nexpr [] r.1 r.2 := by
  obtain ⟨himpFrees, himpBound⟩ := h.implication (Q := Q)
  have hmemb : ∀ b ∈ bs, Condition.binding b ∈ (bs.map .binding).reverse ++ rest := fun b hb =>
    List.mem_append_left _ (List.mem_reverse.2 (List.mem_map_of_mem hb))
  have hmem : ∀ c ∈ rest, c ∈ (bs.map .binding).reverse ++ rest := fun c hc =>
    List.mem_append_right _ hc
  have hmem' : ∀ b ∈ bs, Condition.binding b ∈ (bs.map Condition.binding).reverse := fun b hb =>
    List.mem_reverse.2 (List.mem_map_of_mem hb)
  obtain ⟨-, hnodup, hdisjoint⟩ := List.pairwise_append.1 h.nodup
  obtain ⟨-, hscoped, hcross⟩ := List.pairwise_append.1 h.scope
  have hne : ∀ b ∈ bs, ∀ b', .binding b' ∈ rest → b.uid ≠ b'.uid := fun b hb b' hb' =>
    hdisjoint _ (hmem' b hb) _ hb' b b' rfl rfl
  -- what is relevant still is so, but for the bindings of the group
  have hrelevant : ∀ u ∈ Relevant substs next, (∀ b ∈ bs, b.uid ≠ u) → u ∈ Relevant r.1 r.2 := by
    intro u hu hnot
    refine ⟨lt_of_lt_of_le hu.1 hle, fun entry hentry heq => ?_⟩
    rcases hrenames.entries entry hentry with hstale | ⟨⟨b, hb, hbu⟩, -⟩
    · exact hu.2 entry hstale heq
    · exact hnot b hb (hbu.trans heq)
  refine ⟨hnodup, hscoped, fun b hb => ?_, fun c hc => ?_, ?_, hrenames.keys⟩
  · obtain ⟨hown, hrel⟩ := h.own b (hmem _ hb)
    exact ⟨hown, hrelevant _ hrel fun b' hb' => hne b' hb' b hb⟩
  · obtain ⟨hfrees, hbound⟩ := h.each c (hmem c hc)
    refine ⟨fun u hu => hrelevant u (hfrees hu) ?_, fun u hu => ?_⟩
    · rintro b hb rfl
      exact hcross _ (hmem' b hb) c hc b rfl hu
    · exact ⟨lt_of_lt_of_le (hbound u hu).1 hle, fun b hb => (hbound u hu).2 b (hmem _ hb)⟩
  · rintro f (rfl | hf)
    · refine ⟨fun u hu => ?_, fun u hu => ?_⟩
      · have hfree := hresult.frees hu
        refine hrelevant u ?_ ?_
        · rcases mem_freesList_cases hfree with ⟨b, hb, hfree⟩ | hfree
          · exact (h.each _ (hmemb b hb)).1 hfree
          · exact himpFrees hfree
        · rintro b hb rfl
          exact h.group.2 _ b hb hfree
      · rcases hresult.bound u hu with hbound | ⟨hge, hlt⟩
        · rcases mem_boundList.1 hbound with ⟨b, hb, rfl | hty⟩ | hbody
          · exact ⟨lt_of_lt_of_le (h.own b (hmemb b hb)).2.1 hle,
              fun b' hb' heq => hne b hb b' hb' heq.symm⟩
          · obtain ⟨hlt, hneq⟩ := (h.each _ (hmemb b hb)).2 u hty
            exact ⟨lt_of_lt_of_le hlt hle, fun b' hb' => hneq b' (hmem _ hb')⟩
          · obtain ⟨hlt, hneq⟩ := himpBound u hbody
            exact ⟨lt_of_lt_of_le hlt hle, fun b' hb' => hneq b' (hmem _ hb')⟩
        · exact ⟨hlt, fun b hb => Nat.ne_of_lt (lt_of_lt_of_le (h.own b (hmem _ hb)).2.1 hge)⟩
    · cases hf

/-- The conditions that are left when the loop ends, outermost first: those outside of all bindings,
without the equations that were moved inside. -/
def outerAntes (conditions : List (Condition T)) (antes : List (Formula T)) : List (Formula T) :=
  match conditions with
  | [] => antes
  | .binding b :: conditions => outerAntes (getTccConditionBindings conditions [b]).2 []
  | .formula f :: conditions =>
    if isEquation f then
      let r := collectLetEquations conditions [f] []
      outerAntes r.2 (r.1 ++ antes)
    else outerAntes conditions (f :: antes)
  termination_by conditions.length
  decreasing_by
    · exact Nat.lt_succ_of_le (length_getTccConditionBindings _ _)
    · exact Nat.lt_succ_of_le (length_collectLetEquations _ _ _)
    · exact Nat.lt_succ_self _

/-- A set of variables for what the formula may mention, or bind. -/
def Allows (part : Formula T → Set ℕ) (partOf : Condition T → Set ℕ) (conditions : List (Condition T))
    (expr : Formula T) (antes : List (Formula T)) (u : ℕ) : Prop :=
  (∃ f, (f = expr ∨ f ∈ antes) ∧ u ∈ part f) ∨ ∃ c ∈ conditions, u ∈ partOf c

/-- What the loop makes of a formula. -/
structure LoopResult (Q : Checker T) (conditions : List (Condition T)) (expr : Formula T)
    (antes : List (Formula T)) (substs : Alist T) (next : ℕ) (form : Formula T) (next' : ℕ) :
    Prop where
  holds : ∀ (M : Model Q) env, M.Holds form env ↔ M.HoldsUnder conditions.reverse
    (fun e => (∀ f ∈ antes, M.Holds f e) → M.Holds expr e) env
  meaningful : ∀ (M : Model Q) env, M.MeaningfulUnder conditions.reverse
    (fun e => M.MeaningfulAnd antes e ∧ ((∀ f ∈ antes, M.Holds f e) → M.Meaningful expr e)) env →
      M.MeaningfulAnd (outerAntes conditions antes).reverse env → M.Meaningful form env
  outer : ∃ inner, form = tccImplication Q (outerAntes conditions antes).reverse inner
  frees : ∀ u ∈ form.frees, Allows Formula.frees Condition.frees conditions expr antes u ∧
    ∀ b, .binding b ∈ conditions → b.uid ≠ u
  bound : ∀ u ∈ form.bound, Allows Formula.bound Condition.bound conditions expr antes u ∨
    (∃ b, .binding b ∈ conditions ∧ b.uid = u) ∨ next ≤ u ∧ u < next'
  known : ∀ globals, substs.Spares globals → (∀ g ∈ globals, g.uid < next) →
    (∀ c ∈ conditions, c.Known globals) → (∀ f ∈ antes, f.Known globals) → expr.Known globals →
      form.Known globals
  le : next ≤ next'

/-- Substitutions of bindings that are gone change nothing. -/
theorem substit_stale {f : Formula T} (hf : f.frees ⊆ Relevant substs next) :
    substit Q false f substs = f := by
  have hnone : neededSubsts f.freevars substs = [] := by
    refine List.filter_eq_nil_iff.2 fun entry hentry hkeep => ?_
    rw [Bool.not_eq_true', Bool.or_eq_false_iff, Bool.not_eq_false', memDecl_iff] at hkeep
    obtain ⟨d, hd, heq⟩ := hkeep.2
    exact (hf (f.freevars_subset d hd)).2 entry hentry heq.symm
  rw [substit, hnone]
  rfl

theorem loopResult_nil (h : LoopOk [] expr antes substs next) :
    LoopResult Q [] expr antes substs next (substit Q false (tccImplication Q antes.reverse expr) substs) next := by
  have hrev : LoopOk [] expr antes.reverse substs next :=
    h.antecedents (List.Sublist.refl _) fun f hf => .inl (List.mem_reverse.1 hf)
  rw [substit_stale hrev.implication.1]
  have hparts : ∀ f, f = expr ∨ f ∈ antes.reverse → f = expr ∨ f ∈ antes := fun f hf =>
    hf.imp_right List.mem_reverse.1
  refine ⟨fun M env => ?_, fun M env hP hrev => ?_, ⟨expr, by rw [outerAntes]⟩, fun u hu => ?_,
    fun u hu => ?_, fun globals _ _ _ hantes hexpr => ?_, le_rfl⟩
  · rw [holds_tccImplication]
    simp only [List.mem_reverse]
    rfl
  · rw [outerAntes] at hrev
    refine meaningful_tccImplication hrev fun hall => hP.2 fun f hf => hall f (List.mem_reverse.2 hf)
  · refine ⟨(partWise_frees { u | Allows Formula.frees Condition.frees [] expr antes u }).tccImplication
      (fun f hf u hu => .inl ⟨f, hparts f (.inr hf), hu⟩) (fun u hu => .inl ⟨expr, .inl rfl, hu⟩) hu, ?_⟩
    simp
  · exact .inl ((partWise_bound { u | Allows Formula.bound Condition.bound [] expr antes u }).tccImplication
      (fun f hf u hu => .inl ⟨f, hparts f (.inr hf), hu⟩) (fun u hu => .inl ⟨expr, .inl rfl, hu⟩) hu)
  · exact (partWise_known globals).tccImplication (fun f hf => hantes f (List.mem_reverse.1 hf)) hexpr

/-- A group of bindings with what is outside of it. -/
theorem LoopResult.group {bs : List (Binding T)} {rest : List (Condition T)} {nexpr form : Formula T}
    {substs' : Alist T} {next' next'' : ℕ} (hconditions : conditions = (bs.map .binding).reverse ++ rest)
    (houter : outerAntes conditions antes = outerAntes rest [])
    (hdistinct : ∀ u, Allows Formula.frees Condition.frees rest nexpr [] u → ∀ b ∈ bs, b.uid ≠ u)
    (hgroup : GroupResult Q substs next bs (tccImplication Q antes expr) nexpr substs' next')
    (hle : next ≤ next') (hrest : LoopResult Q rest nexpr [] substs' next' form next'') :
    LoopResult Q conditions expr antes substs next form next'' := by
  have hreverse : conditions.reverse = rest.reverse ++ bs.map .binding := by
    rw [hconditions, List.reverse_append, List.reverse_reverse]
  have hmem : ∀ b ∈ bs, Condition.binding b ∈ conditions := fun b hb => by
    rw [hconditions]
    exact List.mem_append_left _ (List.mem_reverse.2 (List.mem_map_of_mem hb))
  have hmemRest : ∀ c ∈ rest, c ∈ conditions := fun c hc => by
    rw [hconditions]
    exact List.mem_append_right _ hc
  refine ⟨fun M env => ?_, fun M env hP hantes => ?_, ?_, fun u hu => ?_, fun u hu => ?_,
    fun globals hspares hglobals hknown hantes hexpr => ?_, hle.trans hrest.le⟩
  · rw [hrest.holds, hreverse, Interpretation.holdsUnder_append]
    refine Interpretation.holdsUnder_congr (fun e => ?_) env
    rw [Interpretation.holdsUnder_bindings, hgroup.holds]
    simp only [List.not_mem_nil, false_imp_iff, implies_true, true_imp_iff]
    rw [M.forAll_iff, M.forAll_iff]
    exact forall₂_congr fun e' _ => holds_tccImplication
  · rw [hreverse, Interpretation.meaningfulUnder_append] at hP
    refine hrest.meaningful M env (Interpretation.meaningfulUnder_mono (fun e he => ?_) env hP)
      (houter ▸ hantes)
    refine ⟨trivial, fun _ => hgroup.meaningful M e ?_⟩
    rw [Interpretation.meaningfulUnder_bindings, M.forAll_iff] at he
    exact M.forAll_iff.2 fun e' he' => meaningful_tccImplication (he e' he').1 (he e' he').2
  · rw [houter]
    exact hrest.outer
  · obtain ⟨hallows, hrestNot⟩ := hrest.frees u hu
    refine ⟨?_, fun b hb => ?_⟩
    · rcases hallows with ⟨f, rfl | hf, hfree⟩ | ⟨c, hc, hfree⟩
      · rcases mem_freesList_cases (hgroup.frees hfree) with ⟨b, hb, hty⟩ | hbody
        · exact .inr ⟨_, hmem b hb, hty⟩
        · exact (partWise_frees { u | Allows Formula.frees Condition.frees conditions expr antes u }).tccImplication
            (fun f hf u hu => .inl ⟨f, .inr hf, hu⟩) (fun u hu => .inl ⟨expr, .inl rfl, hu⟩) hbody
      · cases hf
      · exact .inr ⟨c, hmemRest c hc, hfree⟩
    · rw [hconditions, List.mem_append, List.mem_reverse, List.mem_map] at hb
      rcases hb with ⟨b', hb', heq⟩ | hb
      · cases heq
        exact hdistinct u hallows b hb'
      · exact hrestNot b hb
  · rcases hrest.bound u hu with (⟨f, rfl | hf, hbound⟩ | ⟨c, hc, hbound⟩) | ⟨b, hb, heq⟩ | ⟨hge, hlt⟩
    · rcases hgroup.bound u hbound with hbound | ⟨hge, hlt⟩
      · rcases mem_boundList.1 hbound with ⟨b, hb, heq | hty⟩ | hbody
        · exact .inr (.inl ⟨b, hmem b hb, heq⟩)
        · exact .inl (.inr ⟨_, hmem b hb, hty⟩)
        · exact .inl ((partWise_bound { u | Allows Formula.bound Condition.bound conditions expr antes u }).tccImplication
            (fun f hf u hu => .inl ⟨f, .inr hf, hu⟩) (fun u hu => .inl ⟨expr, .inl rfl, hu⟩) hbody)
      · exact .inr (.inr ⟨hge, lt_of_lt_of_le hlt hrest.le⟩)
    · cases hf
    · exact .inl (.inr ⟨c, hmemRest c hc, hbound⟩)
    · exact .inr (.inl ⟨b, hmemRest _ hb, heq⟩)
    · exact .inr (.inr ⟨hle.trans hge, hlt⟩)
  · obtain ⟨hnexpr, hspares'⟩ := hgroup.known globals hspares hglobals
      (fun b hb => hknown _ (hmem b hb)) ((partWise_known globals).tccImplication hantes hexpr)
    refine hrest.known globals hspares' (fun g hg => lt_of_lt_of_le (hglobals g hg) hle)
      (fun c hc => hknown c (hmemRest c hc)) ?_ hnexpr
    simp

/-- Conditions that have become antecedents. -/
theorem LoopResult.antecedents {rest : List (Condition T)} {antes' : List (Formula T)}
    {form : Formula T} {next' : ℕ} (hsub : rest.Sublist conditions)
    (hantes : ∀ f ∈ antes', f ∈ antes ∨ .formula f ∈ conditions)
    (hbindings : ∀ b, .binding b ∈ conditions → .binding b ∈ rest)
    (houter : outerAntes conditions antes = outerAntes rest antes')
    (hholds : ∀ (M : Model Q) P env, M.HoldsUnder (conditions.reverse ++ antes.map .formula) P env ↔
      M.HoldsUnder (rest.reverse ++ antes'.map .formula) P env)
    (hmeaningful : ∀ (M : Model Q) P env,
      M.MeaningfulUnder (conditions.reverse ++ antes.map .formula) P env →
        M.MeaningfulUnder (rest.reverse ++ antes'.map .formula) P env)
    (hrest : LoopResult Q rest expr antes' substs next form next') :
    LoopResult Q conditions expr antes substs next form next' := by
  have hparts : ∀ {part partOf u}, Allows part partOf rest expr antes' u →
      (∀ f, partOf (.formula f) = part f) → Allows part partOf conditions expr antes u := by
    rintro part partOf u (⟨f, rfl | hf, hu⟩ | ⟨c, hc, hu⟩) hpart
    · exact .inl ⟨f, .inl rfl, hu⟩
    · rcases hantes f hf with hf | hf
      · exact .inl ⟨f, .inr hf, hu⟩
      · exact .inr ⟨_, hf, hpart f ▸ hu⟩
    · exact .inr ⟨c, hsub.subset hc, hu⟩
  refine ⟨fun M env => ?_, fun M env hP => ?_, houter ▸ hrest.outer, fun u hu => ?_, fun u hu => ?_,
    fun globals hspares hglobals hknown hknownAntes hexpr => ?_, hrest.le⟩
  · have hsame := hholds M (M.Holds expr) env
    rw [Interpretation.holdsUnder_append, Interpretation.holdsUnder_append] at hsame
    rw [hrest.holds, Interpretation.holdsUnder_congr fun e => Interpretation.holdsUnder_formulas.symm,
      ← hsame]
    exact Interpretation.holdsUnder_congr (fun e => Interpretation.holdsUnder_formulas) env
  · rw [houter]
    refine hrest.meaningful M env ?_
    have hsame := hmeaningful M (M.Meaningful expr) env
    rw [Interpretation.meaningfulUnder_append, Interpretation.meaningfulUnder_append] at hsame
    refine Interpretation.meaningfulUnder_mono (fun e he => Interpretation.meaningfulUnder_formulas.1 he)
      env (hsame ?_)
    exact Interpretation.meaningfulUnder_mono
      (fun e he => Interpretation.meaningfulUnder_formulas.2 he) env hP
  · obtain ⟨hallows, hnot⟩ := hrest.frees u hu
    exact ⟨hparts hallows fun f => rfl, fun b hb => hnot b (hbindings b hb)⟩
  · rcases hrest.bound u hu with hallows | ⟨b, hb, heq⟩ | hfresh
    · exact .inl (hparts hallows fun f => rfl)
    · exact .inr (.inl ⟨b, hsub.subset hb, heq⟩)
    · exact .inr (.inr hfresh)
  · refine hrest.known globals hspares hglobals (fun c hc => hknown c (hsub.subset hc))
      (fun f hf => ?_) hexpr
    rcases hantes f hf with hf | hf
    · exact hknownAntes f hf
    · exact hknown _ hf

theorem addTccConditionsStar_spec (h : LoopOk conditions expr antes substs next) :
    ∃ form next', addTccConditionsStar Q expr conditions substs antes next = some (form, next') ∧
      LoopResult Q conditions expr antes substs next form next' := by
  fun_induction addTccConditionsStar Q expr conditions substs antes next with
  | case1 expr substs antes next => exact ⟨_, _, rfl, loopResult_nil h⟩
  | case2 expr substs antes next b conditions r ih =>
    have hconditions : Condition.binding b :: conditions = (r.1.map .binding).reverse ++ r.2 :=
      (getTccConditionBindings_append conditions [b]).symm
    rw [hconditions] at h
    obtain ⟨hok, hnot⟩ := h.group
    obtain ⟨himpFrees, himpBound⟩ := h.implication (Q := Q)
    obtain ⟨nexpr, s, hs, hrenames, hle, hgroup⟩ := addTccBindings_spec r.2 h.keys hok himpFrees
      fun u hu => ⟨(himpBound u hu).1, fun b hb => (himpBound u hu).2 b
        (List.mem_append_left _ (List.mem_reverse.2 (List.mem_map_of_mem hb)))⟩
    obtain ⟨form, next', hform, hrest⟩ := ih (nexpr, s) (h.rest hrenames hle hgroup)
    refine ⟨form, next', by rw [hs]; exact hform, ?_⟩
    refine hrest.group hconditions (by rw [outerAntes]) ?_ hgroup hle
    rintro u (⟨f, rfl | hf, hu⟩ | ⟨c, hc, hu⟩) b' hb' rfl
    · exact hnot _ b' hb' (hgroup.frees hu)
    · cases hf
    · exact (List.pairwise_append.1 h.scope).2.2 _ (List.mem_reverse.2 (List.mem_map_of_mem hb')) c hc
        b' rfl hu
  | case3 expr substs antes next f conditions hf r ih =>
    obtain ⟨hsub, hmem, hbindings⟩ := collectLetEquations_spec conditions [f] []
    have hscope : Scoped conditions := (List.pairwise_cons.1 h.scope).2
    have hantes : ∀ g ∈ r.1 ++ antes, g ∈ antes ∨ .formula g ∈ Condition.formula f :: conditions := by
      intro g hg
      rcases List.mem_append.1 hg with hg | hg
      · rcases hmem g hg with hg | hg
        · exact .inr (List.mem_singleton.1 hg ▸ List.mem_cons_self)
        · exact .inr (List.mem_cons_of_mem _ hg)
      · exact .inl hg
    obtain ⟨form, next', hform, hrest⟩ := ih (h.antecedents (hsub.cons _) hantes)
    refine ⟨form, next', hform, hrest.antecedents (hsub.cons _) hantes ?_ ?_ ?_ ?_⟩
    · intro b hb
      refine hbindings b (.inr ((List.mem_cons.1 hb).resolve_left ?_))
      rintro ⟨⟩
    · rw [outerAntes, if_pos hf]
    · intro M P env
      have hmove := collectLetEquations_holds M.loc conditions [f] [] hscope
        (P := M.HoldsUnder (antes.map .formula) P) env
      rw [← Interpretation.holdsUnder_append, ← Interpretation.holdsUnder_append] at hmove
      simpa using hmove
    · intro M P env hP
      have hmove := collectLetEquations_meaningful M.loc conditions [f] [] hscope
        (P := M.MeaningfulUnder (antes.map .formula) P) env
      rw [← Interpretation.meaningfulUnder_append, ← Interpretation.meaningfulUnder_append] at hmove
      simpa using hmove (by simpa using hP)
  | case4 expr substs antes next f conditions hf ih =>
    have hantes : ∀ g ∈ f :: antes, g ∈ antes ∨ .formula g ∈ Condition.formula f :: conditions := by
      intro g hg
      rcases List.mem_cons.1 hg with rfl | hg
      · exact .inr List.mem_cons_self
      · exact .inl hg
    obtain ⟨form, next', hform, hrest⟩ := ih (h.antecedents (List.sublist_cons_self _ _) hantes)
    refine ⟨form, next', hform, hrest.antecedents (List.sublist_cons_self _ _) hantes ?_ ?_ ?_ ?_⟩
    · simp
    · rw [outerAntes, if_neg hf]
    · intro M P env
      simp
    · intro M P env
      simp

end Loop

end PVS.TccGen
