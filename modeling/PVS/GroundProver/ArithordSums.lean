import PVS.GroundProver.Arithord

/-! When `sort` and `addtosum` do not depend on the order of their inputs. -/

namespace PVS.GroundProver

open SExp Library

variable {u v w : SExp}

/-! ### A strict order with ties -/

theorem arithord_irrefl (hu : Proper u) : arithord u u = false :=
  Bool.eq_false_of_not_eq_true (arithOrder.irrefl ⟨u, hu⟩)

theorem arithord_trans (hu : Proper u) (hv : Proper v) (hw : Proper w) (huv : arithord u v = true)
    (hvw : arithord v w = true) : arithord u w = true :=
  arithOrder.trans (u := ⟨u, hu⟩) (v := ⟨v, hv⟩) (w := ⟨w, hw⟩) huv hvw

theorem arithord_asymm (hu : Proper u) (hv : Proper v) (huv : arithord u v = true) :
    arithord v u = false :=
  Bool.eq_false_of_not_eq_true (arithOrder.asymm (u := ⟨u, hu⟩) (v := ⟨v, hv⟩) huv)

/-- Proper terms that `arithord` does not tell apart. -/
def Tied (u v : SExp) : Prop :=
  ∃ (hu : Proper u) (hv : Proper v), arithOrder.Tied ⟨u, hu⟩ ⟨v, hv⟩

theorem tied_iff (hu : Proper u) (hv : Proper v) :
    Tied u v ↔ u ≠ v ∧ arithord u v = false ∧ arithord v u = false := by
  have key : arithOrder.Tied ⟨u, hu⟩ ⟨v, hv⟩ ↔ arithOrder.Incomparable ⟨u, hu⟩ ⟨v, hv⟩ :=
    ⟨WrappedOrder.Tied.incomparable, WrappedOrder.Incomparable.tied⟩
  simp only [← Bool.not_eq_true]
  constructor
  · rintro ⟨_, _, h⟩
    obtain ⟨hne, h⟩ := key.1 h
    exact ⟨fun he => hne (Subtype.ext he), h⟩
  · rintro ⟨hne, h⟩
    exact ⟨hu, hv, key.2 ⟨fun he => hne (congrArg Subtype.val he), h⟩⟩

theorem Tied.symm (h : Tied u v) : Tied v u := by
  obtain ⟨hu, hv, ht⟩ := h
  exact ⟨hv, hu, ht.incomparable.symm.tied⟩

theorem not_tied_iff (hu : Proper u) (hv : Proper v) :
    ¬Tied u v ↔ (u ≠ v → arithord u v = true ∨ arithord v u = true) := by
  rw [tied_iff hu hv]
  cases arithord u v with
  | true => simp
  | false => cases arithord v u <;> simp

/-- Exactly one of two different terms is before the other, unless they are tied. -/
theorem exactly_one_iff (hu : Proper u) (hv : Proper v) (hne : u ≠ v) :
    (arithord u v = true ∧ arithord v u = false ∨ arithord v u = true ∧ arithord u v = false) ↔
      ¬Tied u v := by
  rw [tied_iff hu hv]
  cases huv : arithord u v with
  | true => simp [arithord_asymm hu hv huv]
  | false =>
    cases hvu : arithord v u with
    | true => simp
    | false => simp [hne]

/-! ### Sorting -/

/-- `(sort l #'arithord)` -/
def arithSort (l : List SExp) : List SExp := l.insertionSort fun a b => arithord b a = false

def arithLe (a b : ProperTerm) : Prop := arithord b.1 a.1 = false

instance : DecidableRel arithLe := fun a b => inferInstanceAs (Decidable (arithord b.1 a.1 = false))

theorem arithSort_map (l : List ProperTerm) :
    arithSort (l.map Subtype.val) = (l.insertionSort arithLe).map Subtype.val :=
  (List.map_insertionSort arithLe (fun a b => arithord b a = false) Subtype.val l
    fun _ _ _ _ => Iff.rfl).symm

theorem arithSort_perm_iff {l : List SExp} (hl : ∀ u ∈ l, Proper u) :
    (∀ l', l'.Perm l → arithSort l' = arithSort l) ↔ ∀ u ∈ l, ∀ v ∈ l, ¬Tied u v := by
  have hle (a b : ProperTerm) : arithLe a b ↔ ¬arithOrder.lt b a :=
    (Bool.not_eq_true (arithord b.1 a.1)).symm.to_iff
  lift l to List ProperTerm using hl
  have hsort := insertionSort_perm_iff hle arithOrder.trans arithOrder.irrefl l
  have hmem : (∀ u ∈ l.map Subtype.val, ∀ v ∈ l.map Subtype.val, ¬Tied u v) ↔
      ∀ u ∈ l, ∀ v ∈ l, u ≠ v → arithOrder.lt u v ∨ arithOrder.lt v u := by
    simp only [List.forall_mem_map]
    refine forall₂_congr fun u _ => forall₂_congr fun v _ => ?_
    rw [not_tied_iff u.2 v.2, ne_eq, ← Subtype.ext_iff]
    exact Iff.rfl
  rw [hmem, ← hsort]
  constructor
  · intro h l' hp
    have := h _ (hp.map Subtype.val)
    rw [arithSort_map, arithSort_map] at this
    exact Subtype.val_injective.list_map this
  · intro h l' hp
    have hl' : ∀ u ∈ l', Proper u := by
      intro u hu
      obtain ⟨u, -, rfl⟩ := List.mem_map.1 (hp.subset hu)
      exact u.2
    lift l' to List ProperTerm using hl'
    rw [arithSort_map, arithSort_map, h l' ((List.map_perm_map_iff Subtype.val_injective).1 hp)]

/-! ### Sums -/

/-- The sum of terms with their coefficients, added one after the other. -/
def sumOf (ps : List (SExp × SExp)) : List (SExp × SExp) :=
  ps.foldl (fun sum p => addtosum p.1 p.2 sum) []

/-- A term with a rational coefficient -/
structure ProperAddend (p : SExp × SExp) : Prop where
  term : Proper p.1
  coef : QNumber p.2

variable {a b c : SExp} {sum : List (SExp × SExp)}

theorem qnorm_qplus_qnorm (hc : QNumber c) (ha : QNumber a) (hb : QNumber b) :
    qnorm (qplus (qnorm (qplus c a)) b) = qrep (qval c + qval a + qval b) := by
  rw [qnorm_eq (hc.qplus ha), qnorm_eq ((qnumber_qrep _).qplus hb), qval_qplus (qnumber_qrep _) hb,
    qval_qrep, qval_qplus hc ha]

theorem ProperAddend.addtosum (hu : ProperAddend (u, a)) (hs : ∀ p ∈ sum, ProperAddend p) :
    ∀ p ∈ addtosum u a sum, ProperAddend p := by
  induction sum with
  | nil => simpa [GroundProver.addtosum] using hu
  | cons p sum ih =>
    rw [List.forall_mem_cons] at hs
    unfold GroundProver.addtosum
    split
    · rw [List.forall_mem_cons]
      have hc := hs.1.coef.qplus hu.coef
      exact ⟨⟨hs.1.term, by rw [qnorm_eq hc]; exact qnumber_qrep _⟩, hs.2⟩
    · split
      · rw [List.forall_mem_cons, List.forall_mem_cons]
        exact ⟨hu, hs⟩
      · rw [List.forall_mem_cons]
        exact ⟨hs.1, ih hs.2⟩

/-- A term that is before the first one is added in front. -/
theorem addtosum_of_arithord (hu : Proper u) (huw : arithord u w = true) :
    addtosum u a ((w, c) :: sum) = (u, a) :: (w, c) :: sum := by
  have hne : w ≠ u := by
    rintro rfl
    rw [arithord_irrefl hu] at huw
    cases huw
  rw [addtosum, if_neg hne, if_pos huw]

/-- The coefficients of one term may be added in either order. -/
theorem addtosum_same (ha : QNumber a) (hb : QNumber b)
    (hs : ∀ p ∈ sum, ProperAddend p) :
    addtosum u a (addtosum u b sum) = addtosum u b (addtosum u a sum) := by
  have hcomm : qnorm (qplus b a) = qnorm (qplus a b) := by
    rw [qnorm_eq (hb.qplus ha), qnorm_eq (ha.qplus hb), qval_qplus hb ha, qval_qplus ha hb,
      add_comm]
  induction sum with
  | nil => simp [addtosum, hcomm]
  | cons p sum ih =>
    rw [List.forall_mem_cons] at hs
    obtain ⟨w, c⟩ := p
    by_cases hw : w = u
    · simp only [addtosum, hw, if_true]
      rw [qnorm_qplus_qnorm hs.1.coef hb ha, qnorm_qplus_qnorm hs.1.coef ha hb, add_right_comm]
    · cases huw : arithord u w with
      | true => simp [addtosum, hw, huw, hcomm]
      | false => simp [addtosum, hw, huw, ih hs.2]

/-- Terms that are in order may be added in either order. -/
theorem addtosum_of_lt (hu : Proper u) (hv : Proper v) (huv : arithord u v = true)
    (hs : ∀ p ∈ sum, ProperAddend p) :
    addtosum u a (addtosum v b sum) = addtosum v b (addtosum u a sum) := by
  have hvu := arithord_asymm hu hv huv
  have hne : u ≠ v := by
    rintro rfl
    rw [hvu] at huv
    cases huv
  induction sum with
  | nil => simp [addtosum, hne, hne.symm, huv, hvu]
  | cons p sum ih =>
    rw [List.forall_mem_cons] at hs
    obtain ⟨⟨hw, -⟩, hs⟩ := hs
    obtain ⟨w, c⟩ := p
    by_cases hwv : w = v
    · subst hwv
      simp [addtosum, hne, hne.symm, huv, hvu]
    · cases hvw : arithord v w with
      | true =>
        have huw := arithord_trans hu hv hw huv hvw
        rw [addtosum_of_arithord hv hvw, addtosum_of_arithord hu huv, addtosum_of_arithord hu huw]
        simp [addtosum, hne, hvu, hwv, hvw]
      | false =>
        by_cases hwu : w = u
        · subst hwu
          simp [addtosum, hne, hvu]
        · cases huw : arithord u w with
          | true => simp [addtosum, hne, hwu, hwv, hvu, huw, hvw]
          | false => simp [addtosum, hwu, hwv, huw, hvw, ih hs]

theorem addtosum_comm (hu : ProperAddend (u, a)) (hv : ProperAddend (v, b)) (h : ¬Tied u v)
    (hs : ∀ p ∈ sum, ProperAddend p) :
    addtosum u a (addtosum v b sum) = addtosum v b (addtosum u a sum) := by
  by_cases huv : u = v
  · subst huv
    exact addtosum_same hu.coef hv.coef hs
  · obtain h | h := (not_tied_iff hu.term hv.term).1 h huv
    · exact addtosum_of_lt hu.term hv.term h hs
    · exact (addtosum_of_lt hv.term hu.term h hs).symm

/-- Each term once, and none before one that comes earlier. -/
def InOrder (sum : List (SExp × SExp)) : Prop :=
  sum.Pairwise fun p q => p.1 ≠ q.1 ∧ arithord q.1 p.1 = false

theorem forall_mem_addtosum {P : SExp → Prop} (hu : P u) (hs : ∀ p ∈ sum, P p.1) :
    ∀ p ∈ addtosum u a sum, P p.1 := by
  induction sum with
  | nil => simpa [addtosum] using hu
  | cons p sum ih =>
    rw [List.forall_mem_cons] at hs
    unfold addtosum
    split
    · rw [List.forall_mem_cons]
      exact hs
    · split
      · rw [List.forall_mem_cons, List.forall_mem_cons]
        exact ⟨hu, hs⟩
      · rw [List.forall_mem_cons]
        exact ⟨hs.1, ih hs.2⟩

theorem InOrder.addtosum (hu : Proper u) (hs : ∀ p ∈ sum, Proper p.1) (h : InOrder sum) :
    InOrder (addtosum u a sum) := by
  induction sum with
  | nil => exact List.pairwise_singleton _ _
  | cons p sum ih =>
    rw [List.forall_mem_cons] at hs
    obtain ⟨hp, h⟩ := List.pairwise_cons.1 h
    unfold GroundProver.addtosum
    split
    · exact List.pairwise_cons.2 ⟨hp, h⟩
    · rename_i hne
      split
      · rename_i hlt
        refine List.pairwise_cons.2 ⟨?_, List.pairwise_cons.2 ⟨hp, h⟩⟩
        have hgt := arithord_asymm hu hs.1 hlt
        rw [List.forall_mem_cons]
        refine ⟨⟨fun he => hne he.symm, hgt⟩, fun q hq => ?_⟩
        -- otherwise `q` would be before the first term
        have hqp := (hp q hq).2
        refine ⟨?_, Bool.eq_false_of_not_eq_true fun hqu => ?_⟩
        · rintro rfl
          rw [hlt] at hqp
          cases hqp
        · rw [arithord_trans (hs.2 q hq) hu hs.1 hqu hlt] at hqp
          cases hqp
      · rename_i hlt
        refine List.pairwise_cons.2 ⟨?_, ih hs.2 h⟩
        exact forall_mem_addtosum (P := fun x => p.1 ≠ x ∧ arithord x p.1 = false)
          ⟨hne, Bool.eq_false_of_not_eq_true hlt⟩ hp

/-- The terms that are there stay in their order. -/
theorem keys_sublist_addtosum :
    (sum.map Prod.fst).Sublist ((addtosum u a sum).map Prod.fst) := by
  induction sum with
  | nil => exact List.nil_sublist _
  | cons p sum ih =>
    unfold addtosum
    split
    · exact List.Sublist.refl _
    · split
      · exact List.sublist_cons_self _ _
      · exact ih.cons_cons _

theorem InOrder.nodup (h : InOrder sum) : (sum.map Prod.fst).Nodup :=
  List.pairwise_map.2 (h.imp And.left)

/-- The terms that are there stay in their order to the end, each of them once. -/
theorem sumOf_spec (ps : List (SExp × SExp)) (hps : ∀ p ∈ ps, ProperAddend p)
    (hs : ∀ p ∈ sum, ProperAddend p) (h : InOrder sum) :
    (sum.map Prod.fst).Sublist ((ps.foldl (fun s p => addtosum p.1 p.2 s) sum).map Prod.fst) ∧
      InOrder (ps.foldl (fun s p => addtosum p.1 p.2 s) sum) := by
  induction ps generalizing sum with
  | nil => exact ⟨List.Sublist.refl _, h⟩
  | cons p ps ih =>
    rw [List.forall_mem_cons] at hps
    have hord : InOrder (addtosum p.1 p.2 sum) :=
      h.addtosum hps.1.term fun p hp => (hs p hp).term
    obtain ⟨hsub, hord⟩ := ih hps.2 (hps.1.addtosum hs) hord
    exact ⟨keys_sublist_addtosum.trans hsub, hord⟩

/-- The terms of the first two addends, when they are tied, stay as they came. -/
theorem sumOf_tied {p q : SExp × SExp} {ps : List (SExp × SExp)} (hp : ProperAddend p)
    (hq : ProperAddend q) (hps : ∀ p ∈ ps, ProperAddend p) (h : Tied p.1 q.1) :
    [p.1, q.1].Sublist ((sumOf (p :: q :: ps)).map Prod.fst) ∧
      ((sumOf (p :: q :: ps)).map Prod.fst).Nodup := by
  obtain ⟨hne, hlt, hgt⟩ := (tied_iff hp.term hq.term).1 h
  have hpq : sumOf (p :: q :: ps) = ps.foldl (fun s p => addtosum p.1 p.2 s) [p, q] := by
    simp [sumOf, addtosum, hne, hgt]
  have hord : InOrder [p, q] := List.pairwise_pair.2 ⟨hne, hgt⟩
  obtain ⟨hsub, hord⟩ := sumOf_spec ps hps (by simp [hp, hq]) hord
  rw [hpq]
  exact ⟨hsub, hord.nodup⟩

theorem sumOf_perm_iff {ps : List (SExp × SExp)} (hps : ∀ p ∈ ps, ProperAddend p) :
    (∀ ps', ps'.Perm ps → sumOf ps' = sumOf ps) ↔ ∀ p ∈ ps, ∀ q ∈ ps, ¬Tied p.1 q.1 := by
  constructor
  · intro h p hp q hq ht
    have hne := ((tied_iff (hps p hp).term (hps q hq).term).1 ht).1
    obtain ⟨m, hm⟩ := exists_perm_cons_cons hp hq fun he => hne (congrArg Prod.fst he)
    have hm' : (q :: p :: m).Perm ps := (List.Perm.swap p q m).trans hm
    have hms : ∀ p ∈ m, ProperAddend p := fun x hx => hps x (hm.subset (by simp [hx]))
    obtain ⟨hsub, hnodup⟩ := sumOf_tied (hps p hp) (hps q hq) hms ht
    obtain ⟨hsub', -⟩ := sumOf_tied (hps q hq) (hps p hp) hms ht.symm
    rw [h _ hm'] at hsub'
    rw [h _ hm] at hsub hnodup
    exact not_pair_sublist hnodup hsub hsub'
  · intro h ps' hp
    refine foldl_eq_of_perm (P := fun sum => ∀ p ∈ sum, ProperAddend p) hp (by simp)
      (fun s hs p hp' => (hps p (hp.subset hp')).addtosum hs) fun s hs p hp' q hq' => ?_
    exact addtosum_comm (hps q (hp.subset hq')) (hps p (hp.subset hp'))
      (h q (hp.subset hq') p (hp.subset hp')) hs

/-! ### Totality -/

/-- `arithord` is a strict order; it tells two different terms apart, and `sort` and `addtosum` do
not depend on the order of their inputs, when no two terms are tied. -/
theorem arithord_total_iff (u v w : SExp) (l : List SExp) (ps : List (SExp × SExp)) :
    (Proper u → arithord u u = false) ∧
    (Proper u → Proper v → Proper w → arithord u v = true → arithord v w = true →
      arithord u w = true) ∧
    (Proper u → Proper v → u ≠ v →
      ((arithord u v = true ∧ arithord v u = false ∨
        arithord v u = true ∧ arithord u v = false) ↔ ¬Tied u v)) ∧
    ((∀ u ∈ l, Proper u) →
      ((∀ l', l'.Perm l → arithSort l' = arithSort l) ↔ ∀ u ∈ l, ∀ v ∈ l, ¬Tied u v)) ∧
    ((∀ p ∈ ps, ProperAddend p) →
      ((∀ ps', ps'.Perm ps → sumOf ps' = sumOf ps) ↔ ∀ p ∈ ps, ∀ q ∈ ps, ¬Tied p.1 q.1)) :=
  ⟨arithord_irrefl, arithord_trans, exactly_one_iff, arithSort_perm_iff, sumOf_perm_iff⟩

theorem tied_times_divide : Tied (times [.sym "a", .sym "b"]) (divide (.int 1) (.sym "a")) := by
  have hrep : arithRep (times [.sym "a", .sym "b"]) = .sym "a" := rfl
  have hrep' : arithRep (divide (.int 1) (.sym "a")) = .sym "a" := by
    have h : arithordRep (.sym "a") = .sym "a" := by rw [arithordRep]; rfl
    exact h
  have ha : Canonical (.sym "a") := .symbol (by decide)
  have hb : Canonical (.sym "b") := .symbol (by decide)
  have hu : Canonical (times [.sym "a", .sym "b"]) := .arith (by decide) ha rfl (by simpa using hb)
  have hv : Canonical (divide (.int 1) (.sym "a")) :=
    qrep_intCast 1 ▸ .coef (by decide) (q := 1) ha rfl (by simp)
  exact ⟨hu.proper, hv.proper, .mixed (j := .times) (k := .divide) rfl rfl (by decide)
    (Subtype.ext (hrep.trans hrep'.symm))⟩

/-- A product of two variables and the reciprocal of the first one -/
theorem not_arithord_total :
    let u := times [.sym "a", .sym "b"]
    let v := divide (.int 1) (.sym "a")
    u ≠ v ∧ arithord u v = false ∧ arithord v u = false ∧
      arithSort [u, v] ≠ arithSort [v, u] ∧
      sumOf [(u, .int 1), (v, .int 1)] ≠ sumOf [(v, .int 1), (u, .int 1)] := by
  intro u v
  obtain ⟨hu, hv, _⟩ := tied_times_divide
  obtain ⟨hne, huv, hvu⟩ := (tied_iff hu hv).1 tied_times_divide
  refine ⟨hne, huv, hvu, ?_, ?_⟩
  · simp [arithSort, u, v, huv, hvu, hne]
  · simp [sumOf, addtosum, u, v, hne, hne.symm, huv, hvu]

end PVS.GroundProver
