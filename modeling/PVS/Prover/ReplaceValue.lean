import PVS.Prover.Replace

/-! Replacement by an expression of the same value keeps the value. -/

namespace PVS.Prover

variable {C : Callees} {D : Type} {M : Model D} {ρ : ℕ → D}

/-! ### Connectives -/

theorem eval_of_tcEq {e e' : Expr} (h : C.tcEq e e' = true) : e.eval M ρ = e'.eval M ρ :=
  C.tcEq_sound h M ρ

theorem eval_negateExpr (e : Expr) : (negateExpr C e).eval M ρ = M.negation (e.eval M ρ) := by
  unfold negateExpr
  split
  · rename_i e
    exact (Model.negation_negation _).symm
  · split
    · rename_i h
      rw [eval_of_tcEq h]
      exact Model.negation_true.symm
    · split
      · rename_i h
        rw [eval_of_tcEq h]
        exact Model.negation_false.symm
      · rfl

theorem eval_newExprs (e : Expr) :
    (newExprs e).1.eval M ρ = M.unary (.projection 1) (e.eval M ρ) ∧
      (newExprs e).2.eval M ρ = M.unary (.projection 2) (e.eval M ρ) := by
  unfold newExprs
  split
  · exact ⟨(M.projection_fst ..).symm, (M.projection_snd ..).symm⟩
  · exact ⟨rfl, rfl⟩

theorem eval_rebuildConnective (k : Connective) (arg : Expr) :
    (rebuildConnective C k arg).eval M ρ = M.applyConnective k (arg.eval M ρ) := by
  obtain ⟨ha, hb⟩ := eval_newExprs (M := M) (ρ := ρ) arg
  have happly : k ≠ .negation → M.applyConnective k (arg.eval M ρ) =
      M.connective k ((newExprs arg).1.eval M ρ) ((newExprs arg).2.eval M ρ) := by
    intro hk
    rw [Model.applyConnective, if_neg hk, ha, hb]
  have hbool : ∀ {e : Expr} {b : Bool}, C.tcEq e (.bool b) = true → e.eval M ρ = M.bool b :=
    fun h => eval_of_tcEq h
  cases k with
  | equation =>
    rw [rebuildConnective]
    split
    · rename_i h
      rw [happly (by decide), eval_of_tcEq h, Model.equation_self]
      rfl
    · rfl
  | boolEquation =>
    rw [rebuildConnective]
    split
    · rename_i h
      rw [happly (by decide), eval_of_tcEq h, Model.boolEquation_self]
      rfl
    · split
      · rename_i h
        rw [happly (by decide), hbool h, Model.boolEquation_true_left]
      · split
        · rename_i h
          rw [happly (by decide), hbool h, Model.boolEquation_true_right]
        · rfl
  | conjunction =>
    rw [rebuildConnective]
    split
    · rename_i h
      rw [happly (by decide), hbool h, Model.conjunction_true_left]
    · split
      · rename_i h
        rw [happly (by decide), hbool h, Model.conjunction_true_right]
      · split
        · rename_i h
          rw [happly (by decide)]
          obtain h | h := Bool.or_eq_true_iff.1 h
          · rw [hbool h, Model.conjunction_false_left]
            rfl
          · rw [hbool h, Model.conjunction_false_right]
            rfl
        · rfl
  | disjunction =>
    rw [rebuildConnective]
    split
    · rename_i h
      rw [happly (by decide), hbool h, Model.disjunction_false_left]
    · split
      · rename_i h
        rw [happly (by decide), hbool h, Model.disjunction_false_right]
      · split
        · rename_i h
          rw [happly (by decide)]
          obtain h | h := Bool.or_eq_true_iff.1 h
          · rw [hbool h, Model.disjunction_true_left]
            rfl
          · rw [hbool h, Model.disjunction_true_right]
            rfl
        · rfl
  | implication =>
    rw [rebuildConnective]
    split
    · rename_i h
      rw [happly (by decide), hbool h, Model.implication_true_left]
    · split
      · rename_i h
        rw [happly (by decide)]
        obtain h | h := Bool.or_eq_true_iff.1 h
        · rw [hbool h, Model.implication_false_left]
          rfl
        · rw [hbool h, Model.implication_true_right]
          rfl
      · split
        · rename_i h
          rw [happly (by decide), hbool h, Model.implication_false_right, eval_negateExpr]
        · rfl
  | negation =>
    rw [rebuildConnective]
    split
    · rename_i h
      rw [hbool h]
      exact Model.negation_true.symm
    · split
      · rename_i h
        rw [hbool h]
        exact Model.negation_false.symm
      · rfl

/-! ### Applications -/

theorem eval_numbers {es : Expr} {qs : List ℚ} (h : es.numbers? = some qs) :
    es.eval M ρ = (qs.map M.number).foldr M.cons M.nil := by
  induction es generalizing qs with
  | nil =>
    cases h
    rfl
  | cons a d _ ihd =>
    cases a with
    | number q =>
      obtain ⟨qs', hqs', rfl⟩ := Option.map_eq_some_iff.1 h
      rw [Expr.eval, ihd hqs']
      rfl
    | _ => cases h
  | _ => cases h

theorem eval_simplifyOrCopyApp (useRationals : Bool) (op arg : Expr) :
    (simplifyOrCopyApp useRationals op arg).eval M ρ = M.app (op.eval M ρ) (arg.eval M ρ) := by
  unfold simplifyOrCopyApp simplifyGroundArith
  split
  · rename_i op es
    split
    · rename_i qs hqs
      split
      · rename_i h
        rw [Bool.and_eq_true, groundArithDefined] at h
        have hdefined : op = .divide → ∃ q, qs[1]? = some q ∧ q ≠ 0 := by
          rintro rfl
          simpa [Option.any_eq_true] using h.2
        exact ((congrArg (M.app _) (congrArg M.tuple (eval_numbers hqs))).trans
          (M.app_numbers op qs hdefined)).symm
      · rfl
    · rfl
  · rename_i op q
    split
    · rename_i h
      rw [Bool.and_eq_true, groundArithDefined] at h
      have hdefined : op ≠ .divide := by
        rintro rfl
        simp at h
      exact (M.app_number op q hdefined).symm
    · rfl
  · rfl

/-! ### Binders -/

theorem lt_fresh_bindings {n : ℕ} {bs : Bindings} {b : BindDecl} (h : b ∈ bs.decls) :
    b.uid < bs.fresh n :=
  bs.lt_fresh n b.uid (List.mem_map_of_mem h)

theorem types_nonclashing {newId : String → String} {ids : List String} {m : ℕ}
    {bs : List BindDecl} :
    (nonclashing newId ids m bs).map BindDecl.type = bs.map BindDecl.type := by
  induction bs generalizing m with
  | nil => rfl
  | cons b bs ih =>
    rw [nonclashing, List.map_cons, List.map_cons, ih]
    split <;> rfl

/-- The renamed bindings are the ones of the expression that was found, or are new. -/
theorem eval_rebuildBinding {n : ℕ} {rhs e nexpr : Expr} {k : Binder} {bs : Bindings}
    (hval : ∀ ρ : ℕ → D, nexpr.eval M ρ = e.eval M ρ)
    (hbound : (bs.decls.any fun b => b.id ∈ rhs.freeIds []) = true →
      ∀ b ∈ bs.decls, b.uid ∉ nexpr.bound) :
    (rebuildBinding C n rhs k bs e nexpr).eval M ρ = (Expr.binding k bs e).eval M ρ := by
  unfold rebuildBinding
  split
  · rfl
  · unfold makeNonclashingBindings
    by_cases hclash : (bs.decls.any fun b => b.id ∈ rhs.freeIds []) = true
    · have hfresh : ∀ u, u ∈ nexpr.frees ∨ u ∈ nexpr.bound → u < bs.fresh (nexpr.fresh n) :=
        fun u hu => (nexpr.lt_fresh n u hu).trans_le (bs.le_fresh _)
      simp only [hclash, if_true, Expr.eval]
      congr 1
      · exact types_nonclashing
      · funext vals
        rw [C.substit_eval, ← hval]
        · apply nexpr.eval_congr
          intro u hu
          exact bindEnv_nonclashing ρ vals (fun b hb => lt_fresh_bindings hb) bs.nodup
            (hfresh u (.inl hu))
        · intro a ha
          obtain ⟨h₁, h₂⟩ := List.of_mem_zip (List.mem_filter.1 ha).1
          refine ⟨hbound hclash a.1 h₁, fun hmem => ?_⟩
          obtain ⟨b, hb, he⟩ | hle := mem_nonclashing h₂
          · exact hbound hclash b hb (he ▸ hmem)
          · exact (hfresh a.2.uid (.inr hmem)).not_ge hle
    · simp only [hclash]
      simp only [Bool.false_eq_true, if_false, Expr.eval, hval]

/-! ### Bound variables -/

theorem bound_negateExpr {e : Expr} : (negateExpr C e).bound ⊆ e.bound := by
  unfold negateExpr
  split
  · exact subset_rfl
  · split
    · exact Set.empty_subset _
    · split
      · exact Set.empty_subset _
      · exact subset_rfl

theorem bound_newExprs (e : Expr) :
    (newExprs e).1.bound ⊆ e.bound ∧ (newExprs e).2.bound ⊆ e.bound := by
  unfold newExprs
  split
  · exact ⟨fun u hu => .inl hu, fun u hu => .inr (.inl hu)⟩
  · exact ⟨subset_rfl, subset_rfl⟩

theorem bound_rebuildConnective {k : Connective} {arg : Expr} :
    (rebuildConnective C k arg).bound ⊆ arg.bound := by
  obtain ⟨ha, hb⟩ := bound_newExprs arg
  unfold rebuildConnective
  cases k <;> dsimp only <;> split_ifs <;>
    first
    | exact ha
    | exact hb
    | exact bound_negateExpr.trans ha
    | exact Set.empty_subset _
    | exact subset_rfl

theorem bound_simplifyOrCopyApp {useRationals : Bool} {op arg : Expr} :
    (simplifyOrCopyApp useRationals op arg).bound ⊆ op.bound ∪ arg.bound := by
  unfold simplifyOrCopyApp
  cases h : simplifyGroundArith useRationals op arg with
  | none => exact subset_rfl
  | some e =>
    unfold simplifyGroundArith at h
    split at h
    · split at h
      · split at h <;> cases h
        exact Set.empty_subset _
      · cases h
    · split at h <;> cases h
      exact Set.empty_subset _
    · cases h

theorem bound_rebuildBinding {n : ℕ} {rhs e nexpr : Expr} {k : Binder} {bs : Bindings} {u : ℕ}
    (h : u ∈ (rebuildBinding C n rhs k bs e nexpr).bound) :
    u ∈ bs.uids ∨ u ∈ nexpr.bound ∨ n ≤ u := by
  unfold rebuildBinding at h
  split at h
  · rename_i he
    rw [he]
    exact h.imp_right .inl
  · have hle : n ≤ bs.fresh (nexpr.fresh n) := (nexpr.le_fresh n).trans (bs.le_fresh _)
    unfold makeNonclashingBindings at h
    by_cases hclash : (bs.decls.any fun b => b.id ∈ rhs.freeIds []) = true
    · simp only [hclash, if_true] at h
      obtain hmem | hmem := h
      · obtain ⟨b', hb', rfl⟩ := List.mem_map.1 hmem
        obtain ⟨b, hb, he⟩ | hfresh := mem_nonclashing hb'
        · exact .inl (he ▸ List.mem_map_of_mem hb)
        · exact .inr (.inr (hle.trans hfresh))
      · obtain hmem | hfresh := C.bound_substit hmem
        · exact .inr (.inl hmem)
        · exact .inr (.inr (((nexpr.le_fresh n).trans (Bindings.le_fresh _ _)).trans hfresh))
    · simp only [hclash] at h
      exact h.imp_right .inl

section Replace

variable {useRationals : Bool} {n : ℕ} {lhs rhs : Expr}

/-- What is bound in the result is bound in what was found, or in `rhs`, or is new. -/
theorem bound_replaceExpr (e : Expr) (bs : List BindDecl) :
    (replaceExpr C useRationals n lhs rhs e bs).bound ⊆ e.bound ∪ (rhs.bound ∪ { u | n ≤ u }) := by
  have hrhs : ∀ S : Set ℕ, rhs.bound ⊆ S ∪ (rhs.bound ∪ { u | n ≤ u }) :=
    fun S u hu => .inr (.inl hu)
  induction e generalizing bs with
  | nil => exact fun u hu => .inl hu
  | bool | const | var | number | arith | iff | projAssign | fieldAssign | accessorAssign =>
    unfold replaceExpr
    split
    · exact hrhs _
    · exact Set.empty_subset _
  | cons a d iha ihd =>
    rintro u (h | h)
    · exact (iha bs h).imp_left .inl
    · exact (ihd bs h).imp_left .inr
  | app op arg ihop iharg =>
    unfold replaceExpr
    dsimp only
    split_ifs
    · exact hrhs _
    · exact fun u hu => .inl hu
    · intro u hu
      obtain h | h := bound_simplifyOrCopyApp hu
      · exact (ihop bs h).imp_left .inl
      · exact (iharg bs h).imp_left .inr
  | connective k arg ih =>
    unfold replaceExpr
    split
    · exact hrhs _
    · exact bound_rebuildConnective.trans (ih bs)
  | branch c f g ihc ihf ihg =>
    unfold replaceExpr
    dsimp only
    split_ifs
    · exact hrhs _
    · exact fun u hu => (ihf bs hu).imp_left fun h => .inr (.inl h)
    · exact fun u hu => (ihg bs hu).imp_left fun h => .inr (.inr h)
    · rintro u (h | h | h)
      · exact (ihc bs h).imp_left .inl
      · exact (ihf bs h).imp_left fun h => .inr (.inl h)
      · exact (ihg bs h).imp_left fun h => .inr (.inr h)
  | unary k arg ih =>
    unfold replaceExpr
    dsimp only
    split
    · exact hrhs _
    · split
      · split
        · exact fun u hu => .inl hu
        · exact ih bs
      · exact ih bs
  | tuple es ih | record as ih =>
    unfold replaceExpr
    split
    · exact hrhs _
    · exact ih bs
  | update e as ihe ihas =>
    unfold replaceExpr
    split
    · exact hrhs _
    · rintro u (h | h)
      · exact (ihe bs h).imp_left .inl
      · exact (ihas bs h).imp_left .inr
  | assignment args e ihargs ihe =>
    rintro u (h | h)
    · exact (ihargs bs h).imp_left .inl
    · exact (ihe bs h).imp_left .inr
  | binding k vs e ih =>
    unfold replaceExpr
    split
    · exact hrhs _
    · intro u hu
      obtain h | h | h := bound_rebuildBinding hu
      · exact .inl (.inl h)
      · exact (ih _ h).imp_left .inr
      · exact .inr (.inr h)
  | cases e sels els ihe ihsels ihels =>
    unfold replaceExpr
    split
    · exact hrhs _
    · rintro u (h | h | h)
      · exact (ihe bs h).imp_left .inl
      · exact (ihsels bs h).imp_left fun h => .inr (.inl h)
      · exact (ihels bs h).imp_left fun h => .inr (.inr h)
  | selection c vs e ih =>
    rintro u (h | h)
    · exact .inl (.inl h)
    · exact (ih _ h).imp_left .inr

/-! ### Values -/

theorem eval_unlessEq {e e' : Expr} {b : Bool} (heq : b = true → ∀ ρ : ℕ → D, rhs.eval M ρ = e.eval M ρ)
    (h : ∀ ρ : ℕ → D, e'.eval M ρ = e.eval M ρ) (ρ : ℕ → D) :
    (if b then rhs else e').eval M ρ = e.eval M ρ := by
  cases b with
  | true => exact heq rfl ρ
  | false => exact h ρ

theorem mem_uids_append {vs : Bindings} {bs : List BindDecl} {S : Set ℕ}
    (h : ∀ u ∈ S \ { u | u ∈ vs.uids }, u ∈ bs.map BindDecl.uid) :
    ∀ u ∈ S, u ∈ (vs.decls ++ bs).map BindDecl.uid := by
  intro u hu
  rw [List.map_append, List.mem_append]
  by_cases hmem : u ∈ vs.uids
  · exact .inl hmem
  · exact .inr (h u ⟨hu, hmem⟩)

/-- The induction is on the expression; the free variables of what is compared are in `bs`. -/
theorem eval_replaceExpr (hl : lhs.Closed) (hlr : ∀ ρ : ℕ → D, lhs.eval M ρ = rhs.eval M ρ)
    (e : Expr) (bs : List BindDecl) (hfrees : ∀ u ∈ e.frees, u ∈ bs.map BindDecl.uid)
    (hbound : ∀ u ∈ e.bound, u < n) (h : Replaceable C lhs rhs e bs) (ρ : ℕ → D) :
    (replaceExpr C useRationals n lhs rhs e bs).eval M ρ = e.eval M ρ := by
  have hfound : ∀ {bs e}, C.replaceEq bs lhs e = true →
      ∀ ρ : ℕ → D, rhs.eval M ρ = e.eval M ρ := by
    intro bs e heq ρ
    have hnone : ∀ u ∈ lhs.frees, u ∈ bs.map BindDecl.uid := by
      rw [hl]
      exact fun u hu => nomatch hu
    rw [← hlr, C.replaceEq_sound hnone heq]
  induction e generalizing bs ρ with
  | nil => rfl
  | bool | const | var | arith | iff | fieldAssign =>
    exact eval_unlessEq hfound (fun ρ => rfl) ρ
  | number q =>
    refine eval_unlessEq (fun heq ρ => ?_) (fun ρ => rfl) ρ
    rw [← hlr, C.tcEq_sound heq]
  | projAssign i =>
    unfold replaceExpr
    rw [h]
    rfl
  | accessorAssign c =>
    unfold replaceExpr
    rw [h]
    rfl
  | cons a d iha ihd =>
    simp only [replaceExpr, Expr.eval, iha bs (fun u hu => hfrees u (.inl hu))
      (fun u hu => hbound u (.inl hu)) h.1, ihd bs (fun u hu => hfrees u (.inr hu))
      (fun u hu => hbound u (.inr hu)) h.2]
  | app op arg ihop iharg =>
    have hop := ihop bs (fun u hu => hfrees u (.inl hu)) (fun u hu => hbound u (.inl hu)) h.1
    have harg := iharg bs (fun u hu => hfrees u (.inr hu)) (fun u hu => hbound u (.inr hu)) h.2
    refine eval_unlessEq hfound (fun ρ => ?_) ρ
    dsimp only
    split
    · rfl
    · rw [eval_simplifyOrCopyApp, hop, harg, Expr.eval]
  | connective k arg ih =>
    refine eval_unlessEq hfound (fun ρ => ?_) ρ
    rw [eval_rebuildConnective, ih bs hfrees hbound h, Expr.eval]
  | branch c f g ihc ihf ihg =>
    have hc := ihc bs (fun u hu => hfrees u (.inl hu)) (fun u hu => hbound u (.inl hu)) h.1
    have hf := ihf bs (fun u hu => hfrees u (.inr (.inl hu)))
      (fun u hu => hbound u (.inr (.inl hu))) h.2.1
    have hg := ihg bs (fun u hu => hfrees u (.inr (.inr hu)))
      (fun u hu => hbound u (.inr (.inr hu))) h.2.2
    refine eval_unlessEq (fun heq ρ => ?_) (fun ρ => ?_) ρ
    · rw [← hlr, C.replaceEq_sound hfrees heq]
    · have htest : ∀ {b}, C.tcEq (replaceExpr C useRationals n lhs rhs c bs) (.bool b) = true →
          c.eval M ρ = M.bool b := by
        intro b heq
        rw [← hc, C.tcEq_sound heq]
        rfl
      dsimp only
      split
      · rename_i heq
        rw [hf, Expr.eval, htest heq, Model.branch, if_pos rfl]
      · split
        · rename_i heq
          rw [hg, Expr.eval, htest heq, Model.branch, if_neg M.bool_ne.symm]
        · rw [Expr.eval, hc, hf, hg, Expr.eval]
  | unary k arg ih =>
    have harg := ih bs hfrees hbound h
    refine eval_unlessEq hfound (fun ρ => ?_) ρ
    dsimp only
    split
    · split
      · rfl
      · rw [Expr.eval, harg, Expr.eval]
    · rw [Expr.eval, harg, Expr.eval]
  | tuple es ih | record as ih =>
    refine eval_unlessEq hfound (fun ρ => ?_) ρ
    rw [Expr.eval, ih bs hfrees hbound h, Expr.eval]
  | update e as ihe ihas =>
    refine eval_unlessEq hfound (fun ρ => ?_) ρ
    rw [Expr.eval, ihe bs (fun u hu => hfrees u (.inl hu)) (fun u hu => hbound u (.inl hu)) h.1,
      ihas bs (fun u hu => hfrees u (.inr hu)) (fun u hu => hbound u (.inr hu)) h.2, Expr.eval]
  | assignment args e ihargs ihe =>
    rw [replaceExpr, Expr.eval, ihargs bs (fun u hu => hfrees u (.inl hu))
      (fun u hu => hbound u (.inl hu)) h.1, ihe bs (fun u hu => hfrees u (.inr hu))
      (fun u hu => hbound u (.inr hu)) h.2, Expr.eval]
  | binding k vs e ih =>
    have he := ih (vs.decls ++ bs) (mem_uids_append hfrees) (fun u hu => hbound u (.inr hu)) h.1
    refine eval_unlessEq hfound (fun ρ => ?_) ρ
    apply eval_rebuildBinding he
    intro hclash b hb hmem
    obtain hin | hin | hin := bound_replaceExpr e _ hmem
    · exact (h.2 hclash b hb).1 hin
    · exact (h.2 hclash b hb).2 hin
    · exact (hbound b.uid (.inl (List.mem_map_of_mem hb))).not_ge hin
  | cases e sels els ihe ihsels ihels =>
    have he := ihe bs (fun u hu => hfrees u (.inl hu)) (fun u hu => hbound u (.inl hu)) h.1
    have hsels := ihsels bs (fun u hu => hfrees u (.inr (.inl hu)))
      (fun u hu => hbound u (.inr (.inl hu))) h.2.1
    have hels := ihels bs (fun u hu => hfrees u (.inr (.inr hu)))
      (fun u hu => hbound u (.inr (.inr hu))) h.2.2
    refine eval_unlessEq (fun heq ρ => ?_) (fun ρ => ?_) ρ
    · rw [← hlr, C.replaceEq_sound hfrees heq]
    · rw [Expr.eval, he, hsels, hels, Expr.eval]
  | selection c vs e ih =>
    have he := ih (vs.decls ++ bs) (mem_uids_append hfrees) (fun u hu => hbound u (.inr hu)) h
    rw [replaceExpr, Expr.eval, Expr.eval]
    congr 1
    funext vals
    rw [he]

end Replace

/-! ### Plain renaming -/

section Rename

variable {alist : List (BindDecl × BindDecl)}

/-- Substitution of bindings for bindings that none of its binders has. -/
def renameVars (alist : List (BindDecl × BindDecl)) : Expr → Expr
  | .var x => .var (((alist.find? fun a => a.1.uid = x.uid).map Prod.snd).getD x)
  | .cons a d => .cons (renameVars alist a) (renameVars alist d)
  | .app op arg => .app (renameVars alist op) (renameVars alist arg)
  | .connective k arg => .connective k (renameVars alist arg)
  | .branch c f g => .branch (renameVars alist c) (renameVars alist f) (renameVars alist g)
  | .unary u arg => .unary u (renameVars alist arg)
  | .tuple es => .tuple (renameVars alist es)
  | .record as => .record (renameVars alist as)
  | .update e as => .update (renameVars alist e) (renameVars alist as)
  | .assignment args e => .assignment (renameVars alist args) (renameVars alist e)
  | .binding k bs e => .binding k bs (renameVars alist e)
  | .cases e sels els =>
    .cases (renameVars alist e) (renameVars alist sels) (renameVars alist els)
  | .selection c bs e => .selection c bs (renameVars alist e)
  | e => e

theorem bound_renameVars (e : Expr) : (renameVars alist e).bound = e.bound := by
  induction e with
  | nil | bool | const | var | number | arith | iff | projAssign | fieldAssign | accessorAssign =>
    rfl
  | cons a d iha ihd => simp only [renameVars, Expr.bound, iha, ihd]
  | app op arg ihop iharg => simp only [renameVars, Expr.bound, ihop, iharg]
  | connective k arg ih | unary k arg ih => simp only [renameVars, Expr.bound, ih]
  | tuple es ih | record as ih => simp only [renameVars, Expr.bound, ih]
  | branch c f g ihc ihf ihg => simp only [renameVars, Expr.bound, ihc, ihf, ihg]
  | update e as ihe ihas => simp only [renameVars, Expr.bound, ihe, ihas]
  | assignment args e ihargs ihe => simp only [renameVars, Expr.bound, ihargs, ihe]
  | binding k bs e ih | selection k bs e ih => simp only [renameVars, Expr.bound, ih]
  | cases e sels els ihe ihsels ihels => simp only [renameVars, Expr.bound, ihe, ihsels, ihels]

theorem renameUid_cases (u : ℕ) :
    (renameUid alist u = u ∧ ∀ a ∈ alist, a.1.uid ≠ u) ∨
      ∃ a ∈ alist, a.1.uid = u ∧ renameUid alist u = a.2.uid := by
  unfold renameUid
  cases h : alist.find? fun a => a.1.uid = u with
  | none => exact .inl ⟨rfl, by simpa using h⟩
  | some a => exact .inr ⟨a, List.mem_of_find?_eq_some h, by simpa using List.find?_some h, rfl⟩

/-- Bindings that are not renamed, and that nothing is renamed to, are kept. -/
theorem bindEnv_renameUid {us : List ℕ} (h : ∀ a ∈ alist, a.1.uid ∉ us ∧ a.2.uid ∉ us) (ρ vals : ℕ → D)
    (u : ℕ) : bindEnv ρ us vals (renameUid alist u) =
      bindEnv (fun u => ρ (renameUid alist u)) us vals u := by
  induction us generalizing vals with
  | nil => rfl
  | cons w us ih =>
    have hw : renameUid alist u = w ↔ u = w := by
      obtain ⟨hkeep, -⟩ | ⟨a, ha, rfl, hkeep⟩ := @renameUid_cases alist u
      · rw [hkeep]
      · rw [hkeep]
        have hne := h a ha
        simp only [List.mem_cons, not_or] at hne
        exact iff_of_false hne.2.1 hne.1.1
    rw [bindEnv, bindEnv, ih fun a ha =>
      ⟨fun hmem => (h a ha).1 (.tail _ hmem), fun hmem => (h a ha).2 (.tail _ hmem)⟩]
    simp only [hw]

theorem eval_renameVars (e : Expr) (h : ∀ a ∈ alist, a.1.uid ∉ e.bound ∧ a.2.uid ∉ e.bound)
    (ρ : ℕ → D) :
    (renameVars alist e).eval M ρ = e.eval M fun u => ρ (renameUid alist u) := by
  have hleft : ∀ {S T : Set ℕ}, (∀ a ∈ alist, a.1.uid ∉ S ∪ T ∧ a.2.uid ∉ S ∪ T) →
      ∀ a ∈ alist, a.1.uid ∉ S ∧ a.2.uid ∉ S :=
    fun h a ha => ⟨fun hu => (h a ha).1 (.inl hu), fun hu => (h a ha).2 (.inl hu)⟩
  have hright : ∀ {S T : Set ℕ}, (∀ a ∈ alist, a.1.uid ∉ S ∪ T ∧ a.2.uid ∉ S ∪ T) →
      ∀ a ∈ alist, a.1.uid ∉ T ∧ a.2.uid ∉ T :=
    fun h a ha => ⟨fun hu => (h a ha).1 (.inr hu), fun hu => (h a ha).2 (.inr hu)⟩
  induction e generalizing ρ with
  | nil | bool | const | number | arith | iff | projAssign | fieldAssign | accessorAssign => rfl
  | var x =>
    rw [renameVars, Expr.eval, Expr.eval, renameUid]
    cases alist.find? fun a => a.1.uid = x.uid with
    | none => rfl
    | some a => rfl
  | cons a d iha ihd =>
    simp only [renameVars, Expr.eval, iha (hleft h), ihd (hright h)]
  | app op arg ihop iharg =>
    simp only [renameVars, Expr.eval, ihop (hleft h), iharg (hright h)]
  | connective k arg ih | unary k arg ih => simp only [renameVars, Expr.eval, ih h]
  | tuple es ih | record as ih => simp only [renameVars, Expr.eval, ih h]
  | branch c f g ihc ihf ihg =>
    simp only [renameVars, Expr.eval, ihc (hleft h), ihf (hleft (hright h)),
      ihg (hright (hright h))]
  | update e as ihe ihas => simp only [renameVars, Expr.eval, ihe (hleft h), ihas (hright h)]
  | assignment args e ihargs ihe =>
    simp only [renameVars, Expr.eval, ihargs (hleft h), ihe (hright h)]
  | binding k bs e ih | selection k bs e ih =>
    simp only [renameVars, Expr.eval, ih (hright h)]
    congr 1
    funext vals
    congr 1
    funext u
    exact bindEnv_renameUid (hleft h) ρ vals u
  | cases e sels els ihe ihsels ihels =>
    simp only [renameVars, Expr.eval, ihe (hleft h), ihsels (hleft (hright h)),
      ihels (hright (hright h))]

/-- Equality and plain renaming are as `Callees` asks. -/
def Callees.plain : Callees where
  tcEq e e' := e = e'
  replaceEq _ e e' := e = e'
  newBoundvarId _ id := id ++ "1"
  substit _ e alist := renameVars alist e
  tcEq_sound h _ _ _ := by rw [of_decide_eq_true h]
  replaceEq_sound _ h _ _ _ := by rw [of_decide_eq_true h]
  substit_eval h _ _ ρ := eval_renameVars _ h ρ
  bound_substit h := by
    rw [bound_renameVars] at h
    exact .inl h

end Rename

end PVS.Prover
