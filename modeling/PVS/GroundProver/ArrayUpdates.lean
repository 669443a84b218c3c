import Mathlib.Data.List.Sort
import PVS.GroundProver.Arrays

/-! `sigupdate` of `arrays.lisp`, which orders the updates of an array. -/

namespace PVS.GroundProver

open SExp

/-- `atom<` -/
def atomLt : SExp → SExp → Bool
  | .int i, .int j => i < j
  | .int _, _ => true
  | _, .int _ => false
  | .sym a, .sym b => a < b
  | _, _ => false

/-- `expr<` -/
def exprLt : SExp → SExp → Bool
  | .cons a d, .cons a' d' => exprLt a a' || exprLt d d'
  | .cons _ _, _ => false
  | _, .cons _ _ => true
  | a, b => atomLt a b

theorem size_arg1_lt {t : SExp} (h : updatep t = true) : t.arg1.size < t.size := by
  cases t with
  | cons a d =>
    have hcar := size_car_le d
    simp only [arg1, cdr_cons, size_cons]
    omega
  | _ => simp [updatep, consp] at h

def sigupdate (C : Calls) (term : SExp) : SExp :=
  if _h : updatep term.arg1 = true then
    let array1 := term.arg1.arg1
    let i := term.arg1.arg2
    let val := term.arg1.arg3
    let j := term.arg2
    match C.processNoCanon (equal i j) with
    | .true => update array1 j term.arg3
    | .false =>
      if exprLt i j then update (update array1 i val) j term.arg3
      else update (sigupdate C (update array1 j term.arg3)) i val
    | .bools _ =>
      if exprLt i j then
        form "if*" [equal i j, update array1 j term.arg3, update (update array1 i val) j term.arg3]
      else
        form "if*" [equal j i, update array1 j term.arg3, update (update array1 j term.arg3) i val]
  else term
  termination_by term.arg1.size
  decreasing_by exact size_arg1_lt _h

/-! ### The order of expressions -/

/-- Expressions of which the second is not before the first. -/
def ExprLe (a b : SExp) : Prop := exprLt b a = false

attribute [local simp] exprLt atomLt

theorem ExprLe.refl (a : SExp) : ExprLe a a := by
  rw [ExprLe]
  induction a with
  | sym n => simp [exprLt, atomLt]
  | int i => simp [exprLt, atomLt]
  | cons a d iha ihd => rw [exprLt, iha, ihd]; rfl

/-- On lists the order is the product of the orders of the parts. -/
theorem exprLe_cons {a d a' d' : SExp} :
    ExprLe (.cons a d) (.cons a' d') ↔ ExprLe a a' ∧ ExprLe d d' := by
  rw [ExprLe, exprLt, Bool.or_eq_false_iff]
  rfl

theorem ExprLe.trans {a b c : SExp} (hab : ExprLe a b) (hbc : ExprLe b c) : ExprLe a c := by
  induction a generalizing b c with
  | cons a d iha ihd =>
    cases b with
    | cons a' d' =>
      cases c with
      | cons a'' d'' =>
        rw [exprLe_cons] at hab hbc ⊢
        exact ⟨iha hab.1 hbc.1, ihd hab.2 hbc.2⟩
      | _ => simp [ExprLe, exprLt] at hbc
    | _ => simp [ExprLe, exprLt] at hab
  | sym m =>
    cases c with
    | cons a'' d'' => rfl
    | sym p =>
      cases b with
      | sym n =>
        simp only [ExprLe, exprLt, atomLt, decide_eq_false_iff_not, String.not_lt] at hab hbc ⊢
        exact String.le_trans hab hbc
      | int j => simp [ExprLe, exprLt, atomLt] at hab
      | cons a' d' => simp [ExprLe, exprLt] at hbc
    | int k =>
      cases b with
      | sym n => simp [ExprLe, exprLt, atomLt] at hbc
      | int j => simp [ExprLe, exprLt, atomLt] at hab
      | cons a' d' => simp [ExprLe, exprLt] at hbc
  | int i =>
    cases c with
    | cons a'' d'' => rfl
    | sym p => simp [ExprLe, exprLt, atomLt]
    | int k =>
      cases b with
      | sym n => simp [ExprLe, exprLt, atomLt] at hbc
      | int j =>
        simp only [ExprLe, exprLt, atomLt, decide_eq_false_iff_not, not_lt] at hab hbc ⊢
        exact hab.trans hbc
      | cons a' d' => simp [ExprLe, exprLt] at hbc

/-- Of two different expressions one is before the other, but maybe both are. -/
theorem ExprLe.antisymm {a b : SExp} (hab : ExprLe a b) (hba : ExprLe b a) : a = b := by
  induction a generalizing b with
  | cons a d iha ihd =>
    cases b with
    | cons a' d' =>
      rw [exprLe_cons] at hab hba
      rw [iha hab.1 hba.1, ihd hab.2 hba.2]
    | _ => simp [ExprLe, exprLt] at hab
  | sym m =>
    cases b with
    | sym n =>
      simp only [ExprLe, exprLt, atomLt, decide_eq_false_iff_not, String.not_lt] at hab hba
      rw [String.le_antisymm hab hba]
    | int j => simp [ExprLe, exprLt, atomLt] at hab
    | cons a' d' => simp [ExprLe, exprLt] at hba
  | int i =>
    cases b with
    | sym n => simp [ExprLe, exprLt, atomLt] at hba
    | int j =>
      simp only [ExprLe, exprLt, atomLt, decide_eq_false_iff_not, not_lt] at hab hba
      rw [le_antisymm hab hba]
    | cons a' d' => simp [ExprLe, exprLt] at hba

theorem exprLt_of_le_of_ne {a b : SExp} (hle : ExprLe a b) (hne : a ≠ b) : exprLt a b = true := by
  by_contra hlt
  exact hne (hle.antisymm (by simpa [ExprLe] using hlt))

/-! ### Chains of updates -/

/-- An array with updates, the outermost first. -/
def chainTerm (a : SExp) : List (SExp × SExp) → SExp
  | [] => a
  | p :: c => update (chainTerm a c) p.1 p.2

theorem chainTerm_injective {a : SExp} (ha : updatep a = false) : Function.Injective (chainTerm a) := by
  intro c c' h
  induction c generalizing c' with
  | nil =>
    cases c' with
    | nil => rfl
    | cons q c' =>
      rw [chainTerm, chainTerm] at h
      rw [h, updatep_update] at ha
      cases ha
  | cons p c ih =>
    cases c' with
    | nil =>
      rw [chainTerm, chainTerm] at h
      rw [← h, updatep_update] at ha
      cases ha
    | cons q c' =>
      rw [chainTerm, chainTerm] at h
      have harray := congrArg arg1 h
      have hindex := congrArg arg2 h
      have hvalue := congrArg arg3 h
      rw [arg1_update, arg1_update] at harray
      rw [arg2_update, arg2_update] at hindex
      rw [arg3_update, arg3_update] at hvalue
      rw [ih harray, Prod.ext hindex hvalue]

/-- The update on the left belongs outside of the one on the right. -/
def Outside (p q : SExp × SExp) : Prop := exprLt q.1 p.1 = true

instance : DecidableRel Outside := fun p q => inferInstanceAs (Decidable (exprLt q.1 p.1 = true))

/-- Two index terms are known to be distinct. -/
def KnownDistinct (C : Calls) (i j : SExp) : Prop :=
  i ≠ j ∧ C.processNoCanon (equal i j) = .false ∧ C.processNoCanon (equal j i) = .false

/-- One update more. -/
def addUpdate (C : Calls) (t : SExp) (p : SExp × SExp) : SExp := sigupdate C (update t p.1 p.2)

section Chain

variable {C : Calls} {a : SExp}

theorem addUpdate_chain (ha : updatep a = false) (c : List (SExp × SExp)) (p : SExp × SExp)
    (hc : ∀ q ∈ c, KnownDistinct C q.1 p.1) :
    addUpdate C (chainTerm a c) p = chainTerm a (c.orderedInsert Outside p) := by
  induction c with
  | nil =>
    rw [addUpdate, sigupdate, dif_neg (by rw [arg1_update, chainTerm, ha]; exact Bool.false_ne_true)]
    rfl
  | cons q c ih =>
    rw [List.forall_mem_cons] at hc
    have hrest := ih hc.2
    rw [addUpdate] at hrest ⊢
    rw [sigupdate, dif_pos (by rw [arg1_update, chainTerm, updatep_update])]
    simp only [arg1_update, arg2_update, arg3_update, chainTerm, hc.1.2.1, hrest]
    rw [List.orderedInsert]
    by_cases hlt : exprLt q.1 p.1 = true
    · rw [if_pos hlt, if_pos (show Outside p q from hlt)]
      rfl
    · rw [if_neg hlt, if_neg (show ¬ Outside p q from hlt)]
      rfl

/-- The updates of a list, one after another. -/
def buildUpdates (C : Calls) (a : SExp) (l : List (SExp × SExp)) : SExp := l.foldl (addUpdate C) a

def chainOf (l : List (SExp × SExp)) : List (SExp × SExp) :=
  l.foldl (fun c p => c.orderedInsert Outside p) []

theorem foldl_orderedInsert_perm (l c : List (SExp × SExp)) :
    (l.foldl (fun c p => c.orderedInsert Outside p) c).Perm (l ++ c) := by
  induction l generalizing c with
  | nil => exact .refl _
  | cons p l ih =>
    refine (ih _).trans (((List.perm_orderedInsert Outside p c).append_left l).trans ?_)
    exact List.perm_middle

theorem chainOf_perm (l : List (SExp × SExp)) : (chainOf l).Perm l := by
  have hperm := foldl_orderedInsert_perm l []
  rwa [List.append_nil] at hperm

theorem buildUpdates_eq (ha : updatep a = false) {l : List (SExp × SExp)}
    (hl : l.Pairwise fun p q => KnownDistinct C p.1 q.1) :
    buildUpdates C a l = chainTerm a (chainOf l) := by
  have hfold : ∀ c, (∀ q ∈ c, ∀ p ∈ l, KnownDistinct C q.1 p.1) →
      l.foldl (addUpdate C) (chainTerm a c) =
        chainTerm a (l.foldl (fun c p => c.orderedInsert Outside p) c) := by
    induction l with
    | nil => exact fun c _ => rfl
    | cons p l ih =>
      intro c hc
      obtain ⟨hp, hl⟩ := List.pairwise_cons.1 hl
      rw [List.foldl_cons, List.foldl_cons,
        addUpdate_chain ha c p fun q hq => hc q hq p List.mem_cons_self]
      refine ih hl _ fun q hq p' hp' => ?_
      rcases List.mem_cons.1 ((List.perm_orderedInsert Outside p c).mem_iff.1 hq) with rfl | hq
      · exact hp p' hp'
      · exact hc q hq p' (List.mem_cons_of_mem _ hp')
  exact hfold [] (by simp)

end Chain

/-! ### When the order of the updates does not matter -/

/-- Of any two index terms one is before the other and not the other way round. -/
def Comparable (l : List (SExp × SExp)) : Prop :=
  ∀ p ∈ l, ∀ q ∈ l, ExprLe p.1 q.1 ∨ ExprLe q.1 p.1

/-- The index terms are different. -/
def DistinctIndices (l : List (SExp × SExp)) : Prop := (l.map Prod.fst).Nodup

theorem DistinctIndices.of_known {C : Calls} {l : List (SExp × SExp)}
    (h : l.Pairwise fun p q => KnownDistinct C p.1 q.1) : DistinctIndices l := by
  rw [DistinctIndices, List.Nodup, List.pairwise_map]
  exact h.imp fun hpq => hpq.1

theorem outside_orderedInsert {c : List (SExp × SExp)} {p : SExp × SExp} (hc : c.Pairwise Outside)
    (hcomparable : Comparable (p :: c)) (hdistinct : DistinctIndices (p :: c)) :
    (c.orderedInsert Outside p).Pairwise Outside := by
  induction c with
  | nil => simp
  | cons q c ih =>
    obtain ⟨hq, hc'⟩ := List.pairwise_cons.1 hc
    have hnodup := List.nodup_cons.1 hdistinct
    have hne : ∀ r ∈ q :: c, p.1 ≠ r.1 := fun r hr heq =>
      hnodup.1 (heq ▸ List.mem_map_of_mem hr)
    have hpq := hcomparable p List.mem_cons_self q (List.mem_cons_of_mem _ List.mem_cons_self)
    have hqne : ∀ r ∈ c, q.1 ≠ r.1 := fun r hr heq =>
      (List.nodup_cons.1 hnodup.2).1 (heq ▸ List.mem_map_of_mem hr)
    rw [List.orderedInsert]
    by_cases hout : Outside p q
    · rw [if_pos hout]
      refine List.pairwise_cons.2 ⟨fun r hr => ?_, hc⟩
      have hqp : ExprLe q.1 p.1 := by
        refine hpq.resolve_left fun hle => ?_
        rw [ExprLe] at hle
        rw [Outside, hle] at hout
        cases hout
      rcases List.mem_cons.1 hr with rfl | hr'
      · exact hout
      · -- the updates below are before `q`, which is before `p`
        have hrq : ExprLe r.1 q.1 := by
          refine (hcomparable r (by simp [hr']) q (by simp)).resolve_right fun hle => ?_
          have hout' := hq r hr'
          rw [ExprLe] at hle
          rw [Outside, hle] at hout'
          cases hout'
        exact exprLt_of_le_of_ne (hrq.trans hqp) (hne r hr).symm
    · rw [if_neg hout]
      have hle : ExprLe p.1 q.1 := Bool.eq_false_iff.2 hout
      refine List.pairwise_cons.2 ⟨fun r hr => ?_, ih hc' ?_ ?_⟩
      · rcases List.mem_cons.1 ((List.perm_orderedInsert Outside p c).mem_iff.1 hr) with rfl | hr
        · exact exprLt_of_le_of_ne hle (hne q List.mem_cons_self)
        · exact hq r hr
      · exact fun r hr r' hr' => hcomparable r (by grind) r' (by grind)
      · exact List.nodup_cons.2 ⟨fun hmem => hnodup.1 (List.mem_cons_of_mem _ hmem),
          (List.nodup_cons.1 hnodup.2).2⟩

theorem outside_chainOf {l : List (SExp × SExp)} (hcomparable : Comparable l)
    (hdistinct : DistinctIndices l) : (chainOf l).Pairwise Outside := by
  have hfold : ∀ c, c.Pairwise Outside → Comparable (l ++ c) → DistinctIndices (l ++ c) →
      (l.foldl (fun c p => c.orderedInsert Outside p) c).Pairwise Outside := by
    clear hcomparable hdistinct
    induction l with
    | nil => exact fun c hc _ _ => hc
    | cons p l ih =>
      intro c hc hcomparable hdistinct
      have hperm : (l ++ c.orderedInsert Outside p).Perm (p :: l ++ c) :=
        ((List.perm_orderedInsert Outside p c).append_left l).trans List.perm_middle
      refine ih _ (outside_orderedInsert hc ?_ ?_) (fun q hq r hr => ?_) ?_
      · exact fun q hq r hr => hcomparable q (by grind) r (by grind)
      · rw [List.cons_append, DistinctIndices, List.map_cons, List.map_append, List.nodup_cons,
          List.nodup_append'] at hdistinct
        refine List.nodup_cons.2 ⟨fun hmem => hdistinct.1 ?_, hdistinct.2.2.1⟩
        exact List.mem_append_right _ hmem
      · exact hcomparable q (hperm.mem_iff.1 hq) r (hperm.mem_iff.1 hr)
      · exact (hperm.map Prod.fst).nodup_iff.2 hdistinct
  exact hfold [] List.Pairwise.nil (by simpa using hcomparable) (by simpa using hdistinct)

/-- Two chains in order with the same updates are the same. -/
theorem eq_of_outside {c c' : List (SExp × SExp)} (hc : c.Pairwise Outside)
    (hc' : c'.Pairwise Outside) (hcomparable : Comparable c) (hperm : c.Perm c') : c = c' := by
  refine hperm.eq_of_pairwise (fun p q hp hq hpq hqp => ?_) hc hc'
  exfalso
  rcases hcomparable p hp q (hperm.mem_iff.2 hq) with hle | hle
  · rw [ExprLe] at hle
    rw [Outside, hle] at hpq
    cases hpq
  · rw [ExprLe] at hle
    rw [Outside, hle] at hqp
    cases hqp

theorem not_nodup_of_sublists {α : Type} {x y : α} {l : List α} (hl : l.Nodup)
    (hxy : [x, y].Sublist l) (hyx : [y, x].Sublist l) : False := by
  induction l with
  | nil => cases hxy
  | cons z l ih =>
    obtain ⟨hz, hl⟩ := List.nodup_cons.1 hl
    cases hxy with
    | cons _ hxy =>
      cases hyx with
      | cons _ hyx => exact ih hl hxy hyx
      | cons_cons _ hyx => exact hz (hxy.subset (by simp))
    | cons_cons _ hxy =>
      cases hyx with
      | cons _ hyx => exact hz (hyx.subset (by simp))
      | cons_cons _ hyx => exact hz (hxy.subset (by simp))

/-- The new update comes outside of those that it belongs outside of. -/
theorem orderedInsert_before {c : List (SExp × SExp)} {p q : SExp × SExp} (hq : q ∈ c)
    (hout : Outside p q) : [p, q].Sublist (c.orderedInsert Outside p) := by
  induction c with
  | nil => cases hq
  | cons r c ih =>
    rw [List.orderedInsert]
    split_ifs with hr
    · exact (List.singleton_sublist.2 hq).cons_cons p
    · rcases List.mem_cons.1 hq with rfl | hq
      · exact absurd hout hr
      · exact (ih hq).cons r

/-- If of two index terms each is before the other, the one that is added last comes outside. -/
theorem comparable_of_chainOf {l : List (SExp × SExp)} (hdistinct : DistinctIndices l)
    (h : ∀ l', l'.Perm l → chainOf l' = chainOf l) : Comparable l := by
  intro p hp q hq
  by_contra hnot
  rw [not_or, ExprLe, ExprLe, Bool.not_eq_false, Bool.not_eq_false] at hnot
  have hne : p ≠ q := by
    rintro rfl
    exact Bool.false_ne_true ((ExprLe.refl p.1).symm.trans hnot.1)
  let l₁ := (l.erase p).erase q
  have hl₁ : l.Perm (p :: q :: l₁) :=
    (List.perm_cons_erase hp).trans ((List.perm_cons_erase
      ((List.mem_erase_of_ne hne.symm).2 hq)).cons p)
  have hpq : (l₁ ++ [p, q]).Perm l := List.perm_append_comm.trans hl₁.symm
  have hqp : (l₁ ++ [q, p]).Perm l :=
    List.perm_append_comm.trans ((List.Perm.swap p q l₁).trans hl₁.symm)
  have hsame : chainOf (l₁ ++ [p, q]) = chainOf (l₁ ++ [q, p]) := (h _ hpq).trans (h _ hqp).symm
  have hlast : ∀ r r', chainOf (l₁ ++ [r, r']) =
      ((chainOf l₁).orderedInsert Outside r).orderedInsert Outside r' := fun r r' => by
    rw [chainOf, List.foldl_append]
    rfl
  have hmem : ∀ r, r ∈ (chainOf l₁).orderedInsert Outside r := fun r =>
    (List.perm_orderedInsert Outside r _).mem_iff.2 List.mem_cons_self
  have hnodup : (chainOf (l₁ ++ [p, q])).Nodup :=
    ((chainOf_perm _).trans hpq).nodup_iff.2 hdistinct.of_map
  refine not_nodup_of_sublists hnodup (x := q) (y := p) ?_ ?_
  · rw [hlast]
    exact orderedInsert_before (hmem p) hnot.2
  · rw [hsame, hlast]
    exact orderedInsert_before (hmem q) hnot.1

/-! ### An index that is there already -/

/-- The update at `i` is replaced. -/
def overwrite (i : SExp) (p : SExp × SExp) (c : List (SExp × SExp)) : List (SExp × SExp) :=
  c.map fun q => if q.1 = i then p else q

/-- What `sigupdate` does where the index of `p` is known to be `i`. -/
def insertOver (i : SExp) (p : SExp × SExp) : List (SExp × SExp) → List (SExp × SExp)
  | [] => [p]
  | q :: c => if q.1 = i then p :: c else if Outside p q then p :: q :: c else q :: insertOver i p c

/-- The index `j` is known to be `i`, and to be none of the others. -/
def Repeats (C : Calls) (l : List (SExp × SExp)) (i j : SExp) : Prop :=
  i ∈ l.map Prod.fst ∧ C.processNoCanon (equal i j) = .true ∧
    ∀ q ∈ l, q.1 ≠ i → KnownDistinct C q.1 j

theorem addUpdate_repeated {C : Calls} {a i : SExp} {p : SExp × SExp} (ha : updatep a = false)
    (htrue : C.processNoCanon (equal i p.1) = .true) (c : List (SExp × SExp))
    (hc : ∀ q ∈ c, q.1 ≠ i → KnownDistinct C q.1 p.1) :
    addUpdate C (chainTerm a c) p = chainTerm a (insertOver i p c) := by
  induction c with
  | nil =>
    rw [addUpdate, sigupdate, dif_neg (by rw [arg1_update, chainTerm, ha]; exact Bool.false_ne_true)]
    rfl
  | cons q c ih =>
    rw [List.forall_mem_cons] at hc
    have hrest := ih hc.2
    rw [addUpdate] at hrest ⊢
    rw [sigupdate, dif_pos (by rw [arg1_update, chainTerm, updatep_update])]
    simp only [arg1_update, arg2_update, arg3_update, chainTerm, hrest]
    rw [insertOver]
    by_cases hqi : q.1 = i
    · have hanswer : C.processNoCanon (equal q.1 p.1) = .true := by rw [hqi, htrue]
      rw [if_pos hqi]
      simp only [hanswer]
      rfl
    · rw [if_neg hqi]
      simp only [(hc.1 hqi).2.1]
      by_cases hlt : exprLt q.1 p.1 = true
      · simp only [hlt, if_pos (show Outside p q from hlt), if_true]
        rfl
      · rw [if_neg (show ¬ Outside p q from hlt)]
        simp only [hlt]
        rfl

theorem insertOver_eq_iff {i : SExp} {p : SExp × SExp} {c : List (SExp × SExp)}
    (hc : c.Pairwise Outside) (hcomparable : Comparable c) (hdistinct : DistinctIndices c)
    (hi : i ∈ c.map Prod.fst) :
    insertOver i p c = overwrite i p c ↔ ∀ q ∈ c, ExprLe i q.1 → q.1 ≠ i → ExprLe p.1 q.1 := by
  induction c with
  | nil => cases hi
  | cons q c ih =>
    obtain ⟨hq, hc⟩ := List.pairwise_cons.1 hc
    obtain ⟨hnot, hdistinct⟩ := List.nodup_cons.1 hdistinct
    rw [insertOver, overwrite, List.map_cons, List.forall_mem_cons]
    by_cases hqi : q.1 = i
    · have hkeep : c.map (fun r => if r.1 = i then p else r) = c := by
        refine (List.map_congr_left fun r hr => if_neg fun heq => ?_).trans (List.map_id c)
        exact hnot (hqi ▸ heq ▸ List.mem_map_of_mem hr)
      rw [if_pos hqi, if_pos hqi, hkeep]
      refine iff_of_true rfl ⟨fun _ hne => absurd hqi hne, fun r hr hle _ => ?_⟩
      -- what is below the update at `i` is before it
      have hout := hq r hr
      rw [Outside, hqi] at hout
      rw [ExprLe, hout] at hle
      cases hle
    · have hi' : i ∈ c.map Prod.fst := (List.mem_cons.1 hi).resolve_left (Ne.symm hqi)
      obtain ⟨r, hr, rfl⟩ := List.mem_map.1 hi'
      have hle : ExprLe r.1 q.1 := by
        refine (hcomparable r (List.mem_cons_of_mem _ hr) q List.mem_cons_self).resolve_right fun hle => ?_
        have hout := hq r hr
        rw [ExprLe] at hle
        rw [Outside, hle] at hout
        cases hout
      have ih := ih hc (fun x hx y hy => hcomparable x (List.mem_cons_of_mem _ hx) y
        (List.mem_cons_of_mem _ hy)) hdistinct hi'
      rw [if_neg hqi, if_neg hqi]
      by_cases hout : Outside p q
      · rw [if_pos hout]
        refine iff_of_false (fun heq => ?_) fun hall => ?_
        · have hlength := congrArg List.length heq
          simp at hlength
        · have hbefore := hall.1 hle hqi
          rw [ExprLe] at hbefore
          rw [Outside, hbefore] at hout
          cases hout
      · rw [if_neg hout, List.cons_inj_right]
        exact ih.trans (and_iff_right fun _ _ => Bool.eq_false_iff.2 hout).symm

/-! ### The order of updates is normal -/

/-- Updates of an array atom at indices that are known to be distinct. -/
structure Updates (C : Calls) where
  array : SExp
  list : List (SExp × SExp)
  atom : updatep array = false
  distinct : list.Pairwise fun p q => KnownDistinct C p.1 q.1

namespace Updates

variable {C : Calls} (U : Updates C)

/-- The order of the updates does not matter, and an index that is there already is overwritten
where it is. -/
def Normal : Prop :=
  (∀ l', l'.Perm U.list → buildUpdates C U.array l' = buildUpdates C U.array U.list) ∧
    ∀ i j v, Repeats C U.list i j → addUpdate C (buildUpdates C U.array U.list) (j, v) =
      chainTerm U.array (overwrite i (j, v) (chainOf U.list))

/-- An index that is known to be `i` is not after those that `i` is before. -/
def OrderedAlike : Prop :=
  ∀ i j, Repeats C U.list i j → ∀ q ∈ U.list, ExprLe i q.1 → q.1 ≠ i → ExprLe j q.1

theorem normal_iff : U.Normal ↔ Comparable U.list ∧ U.OrderedAlike := by
  have hdistinct := DistinctIndices.of_known U.distinct
  have hbuild := buildUpdates_eq U.atom U.distinct
  have hperm := chainOf_perm U.list
  have hknown : ∀ l' : List (SExp × SExp), l'.Perm U.list → l'.Pairwise fun p q => KnownDistinct C p.1 q.1 :=
    fun l' hl' => hl'.symm.pairwise U.distinct fun h => ⟨h.1.symm, h.2.2, h.2.1⟩
  have horder : (∀ l' : List (SExp × SExp), l'.Perm U.list → buildUpdates C U.array l' = buildUpdates C U.array U.list) ↔
      Comparable U.list := by
    constructor
    · intro h
      refine comparable_of_chainOf hdistinct fun l' hl' => ?_
      have hsame := h l' hl'
      rw [hbuild, buildUpdates_eq U.atom (hknown l' hl')] at hsame
      exact chainTerm_injective U.atom hsame
    · intro hcomparable l' hl'
      have hcomparable' : Comparable l' := fun p hp q hq =>
        hcomparable p (hl'.mem_iff.1 hp) q (hl'.mem_iff.1 hq)
      rw [hbuild, buildUpdates_eq U.atom (hknown l' hl')]
      refine congrArg _ (eq_of_outside (outside_chainOf hcomparable' (.of_known (hknown l' hl')))
        (outside_chainOf hcomparable hdistinct) (fun p hp q hq => ?_)
        (((chainOf_perm l').trans hl').trans hperm.symm))
      exact hcomparable' p ((chainOf_perm l').mem_iff.1 hp) q ((chainOf_perm l').mem_iff.1 hq)
  rw [Normal, horder]
  refine and_congr_right fun hcomparable => ?_
  have hover : ∀ i j v, Repeats C U.list i j →
      (addUpdate C (buildUpdates C U.array U.list) (j, v) =
        chainTerm U.array (overwrite i (j, v) (chainOf U.list)) ↔
      ∀ q ∈ U.list, ExprLe i q.1 → q.1 ≠ i → ExprLe j q.1) := by
    rintro i j v ⟨hi, htrue, hother⟩
    rw [hbuild, addUpdate_repeated U.atom htrue _ fun q hq => hother q (hperm.mem_iff.1 hq),
      (chainTerm_injective U.atom).eq_iff,
      insertOver_eq_iff (outside_chainOf hcomparable hdistinct) ?_ ?_ ?_]
    · simp only [hperm.mem_iff]
    · exact fun p hp q hq => hcomparable p (hperm.mem_iff.1 hp) q (hperm.mem_iff.1 hq)
    · exact (hperm.map Prod.fst).nodup_iff.2 hdistinct
    · exact (hperm.map Prod.fst).mem_iff.2 hi
  constructor
  · exact fun h i j hrepeats => (hover i j nil hrepeats).1 (h i j nil hrepeats)
  · exact fun h i j v hrepeats => (hover i j v hrepeats).2 (h i j hrepeats)

end Updates

/-- Of the indices `(f 1 2)` and `(f 2 1)` each is before the other. -/
def crossedCalls : Calls where
  typealist := []
  processNoCanon e := if e.lside = e.rside then .true else .false
  solve e := [e]

def crossedUpdates : Updates crossedCalls where
  array := .sym "A"
  list := [(form "f" [.int 1, .int 2], .sym "v"), (form "f" [.int 2, .int 1], .sym "w")]
  atom := rfl
  distinct := by simp [KnownDistinct, crossedCalls]

theorem not_normal_crossed : ¬ crossedUpdates.Normal := by
  intro h
  have hswap := h.1 crossedUpdates.list.reverse (List.reverse_perm _)
  rw [buildUpdates_eq crossedUpdates.atom crossedUpdates.distinct, buildUpdates_eq crossedUpdates.atom
    (by simp [crossedUpdates, KnownDistinct, crossedCalls])] at hswap
  exact absurd (chainTerm_injective crossedUpdates.atom hswap) (by decide)

end PVS.GroundProver
