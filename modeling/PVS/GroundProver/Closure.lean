import PVS.GroundProver.Merge
import Mathlib.Logic.Relation

/-! The merge keeps the tables closed under congruence, as long as no entry is dropped from a use
list in favour of one that another list does not have. -/

namespace PVS.GroundProver

open Library SExp UnionFind

/-- The signature of `u` with every argument replaced by its root. -/
def csig (st : ProverState) (u : SExp) : SExp :=
  .cons u.funsym (ofList (u.argsof.toList.map (root st)))

/-- Equal once the atoms on `s` are merged. -/
def Joined (st : ProverState) : SExp → SExp → Prop :=
  Relation.EqvGen fun x y => root st x = root st y ∨ equal x y ∈ st.s

/-- `y` is found by a lookup of the signature `c`, through any of its arguments. -/
structure Represents (st : ProverState) (y c : SExp) : Prop where
  sig : sig st y = c
  use : ∀ z ∈ c.argsof.toList, y ∈ use st z

structure Closed (st : ProverState) : Prop where
  stale : ∀ u, (∀ a ∈ u.argsof.toList, root st a = a) → sig st u = u
  find : ∀ u, Registered st u → ∃ y, Represents st y (csig st u)
  cong : ∀ u v, Registered st u → Registered st v → csig st u = csig st v → Joined st u v

section

variable {st st' pre : ProverState} {u v a b : SExp} {rest : List SExp}

theorem Joined.of_root (h : root st u = root st v) : Joined st u v := .rel _ _ (.inl h)

theorem Joined.of_mem (h : equal u v ∈ st.s) : Joined st u v := .rel _ _ (.inr h)

theorem Joined.trans {w : SExp} (h : Joined st u v) (h' : Joined st v w) : Joined st u w :=
  Relation.EqvGen.trans _ _ _ h h'

theorem Joined.symm (h : Joined st u v) : Joined st v u := Relation.EqvGen.symm _ _ h

theorem Joined.refl (u : SExp) : Joined st u u := Relation.EqvGen.refl u

theorem Joined.mono (hr : ∀ x y, root st x = root st y → root st' x = root st' y)
    (hs : ∀ x y, equal x y ∈ st.s → Joined st' x y) (h : Joined st u v) : Joined st' u v := by
  induction h with
  | rel x y h =>
    obtain h | h := h
    · exact .of_root (hr x y h)
    · exact hs x y h
  | refl x => exact .refl x
  | symm x y _ ih => exact ih.symm
  | trans x y z _ _ ih₁ ih₂ => exact ih₁.trans ih₂

theorem Tables.joined_root (h : Tables st) (v : SExp) : Joined st (root st v) v :=
  .of_root (h.root_root v)

theorem Tables.joined_eqAtom (h : Tables st) (hu : NodeIn st u) (hv : NodeIn st v)
    (hm : eqAtom (root st u) (root st v) ∈ st.s) : Joined st u v := by
  have hl := h.node (h.nodeIn_root hu)
  have hr := h.node (h.nodeIn_root hv)
  obtain ⟨e, _⟩ | e | ⟨ht, e⟩ := eqAtom_cases hl hr
  · exact .of_root e
  · have hj : Joined st (root st u) (root st v) := .of_mem (e ▸ hm)
    exact ((h.joined_root u).symm.trans hj).trans (h.joined_root v)
  · have hj : Joined st (root st v) (root st u) := ht ▸ .of_mem (e ▸ hm)
    exact ((h.joined_root u).symm.trans hj.symm).trans (h.joined_root v)

theorem Tables.csig_root (h : Tables st) (z : SExp) (hz : z ∈ (csig st u).argsof.toList) :
    root st z = z := by
  obtain ⟨a, _, rfl⟩ := List.mem_map.1 (by simpa [csig] using hz)
  exact h.root_root a

theorem csig_eq_of_sig (h : Tables st) (hu : Registered st u) {c : SExp} (hs : sig st u = c) :
    csig st u = csig st c := by
  obtain ⟨_, hf, hm, _⟩ := h.signs u hu
  rw [csig, csig, ← hs, hf, hm]

theorem map_substArg_of_notMem {l : List SExp} (h : a ∉ l) : l.map (substArg a b) = l := by
  have e : l.map (substArg a b) = l.map id :=
    List.map_congr_left fun z hz => if_neg fun (e : z = a) => h (e ▸ hz)
  rw [e, List.map_id]

theorem Tables.newSignature_of_notMem (h : Tables st) (hu : Registered st u)
    (ha : a ∉ (sig st u).argsof.toList) : newSignature st u a b = sig st u := by
  obtain ⟨hs, hf, _⟩ := h.signs u hu
  rw [newSignature, map_substArg_of_notMem ha, ← hf]
  exact hs.eq.symm

/-! ### One round -/

theorem mem_s_mergeUseP {t1 t2 x : SExp} (h : x ∈ st.s) : x ∈ (mergeUseP t1 t2 st u).s :=
  mem_collideAll_s.2 (.inl h)

theorem Joined.of_mergeUseP {t1 t2 : SExp} {x y : SExp} (h : Joined st x y) :
    Joined (mergeUseP t1 t2 st u) x y := by
  refine h.mono (fun x y e => ?_) fun x y e => .of_mem (mem_s_mergeUseP e)
  rwa [root_mergeUseP]

theorem dropped_mergeUseP {t1 t2 : SExp} (h : (mergeUseP t1 t2 st u).dropped = []) :
    st.dropped = [] := (collideAll_dropped h).1

theorem dropped_of_foldl {t1 t2 : SExp} 
    (h : (rest.foldl (mergeUseP t1 t2) st).dropped = []) : st.dropped = [] := by
  induction rest generalizing st with
  | nil => exact h
  | cons u rest ih => exact dropped_mergeUseP (ih h)

/-- An entry that is taken off the list is equated with the one that takes its place. -/
theorem Linked.joined_drop (h : Linked a b st) (hu : Registered st u) (hv : v ∈ use st b)
    (hs : newSignature st u a b = sig st v) (hne : u ≠ v) : Joined (mergeUseP a b st u) u v := by
  have ht := h.of_mergeUseP hu
  have hm : eqAtom (root st u) (root st v) ∈ (mergeUseP a b st u).s := by
    refine mem_collideAll_s.2 (.inr ⟨v, hv, ?_, hne, rfl⟩)
    rw [sig_signAs, if_neg hne.symm]
    exact hs
  refine ht.tables.joined_eqAtom (.inr ((registered_mergeUseP hu).2 hu))
    (.inr ((registered_mergeUseP hu).2 (registered_of_use hv))) ?_
  rwa [root_mergeUseP]

theorem Linked.mem_use_of_not_losesEntry (h : Linked a b st)
    (hd : (mergeUseP a b st u).dropped = []) {z : SExp} (hv : v ∈ use st b)
    (hs : newSignature st u a b = sig st v) (hne : u ≠ v)
    (hroots : ∀ z ∈ (newSignature st u a b).argsof.toList, root st z = z)
    (hz : z ∈ (newSignature st u a b).argsof.toList) (hzb : z ≠ b) : u ∈ use st z := by
  have hl : losesEntry st u (newSignature st u a b) b = false := by
    refine (collideAll_dropped hd).2 v hv ?_ hne
    rw [sig_signAs, if_neg hne.symm]
    exact hs
  have hall : (newSignature st u a b).argsof.toList.all (fun z => find1 st z == nil) = true := by
    rw [List.all_eq_true]
    intro z hz
    rw [beq_iff_eq, h.tables.find1_eq_nil_iff]
    exact hroots z hz
  rw [losesEntry, hall, Bool.true_and, List.any_eq_false] at hl
  simpa [hzb] using hl z hz

theorem mem_use_mergeUseP (hv : v ∈ use st b) (hne : newSignature st u a b ≠ sig st v)
    (hvu : v ≠ u) : v ∈ use (mergeUseP a b st u) b := by
  rw [use_mergeUseP_self]
  refine List.mem_cons_of_mem _ (List.mem_filter.2 ⟨hv, ?_⟩)
  rw [sig_signAs, if_neg hvu]
  simpa using hne

theorem mem_use_mergeUseP_self : u ∈ use (mergeUseP a b st u) b := by
  rw [use_mergeUseP_self]
  exact List.mem_cons_self

/-- A representative stays or gives way to `u`. -/
theorem Linked.represents (h : Linked a b st) (hab : a ≠ b) (hu : Registered st u)
    (hd : (mergeUseP a b st u).dropped = []) {y c : SExp}
    (hc : ∀ z ∈ c.argsof.toList, root st z = z) (hy : Represents st y c) :
    ∃ y', Represents (mergeUseP a b st u) y' c ∧ Joined (mergeUseP a b st u) y' y := by
  have hac : a ∉ c.argsof.toList := fun ha => hab ((hc a ha).symm.trans h.eq)
  by_cases hn : newSignature st u a b = c
  · by_cases hyu : y = u
    · refine ⟨y, ⟨by rw [sig_mergeUseP, if_pos hyu, hn], fun z hz => ?_⟩, .refl y⟩
      by_cases hzb : z = b
      · rw [hzb, hyu]
        exact mem_use_mergeUseP_self
      · rw [use_mergeUseP_ne a hzb]
        exact hy.use z hz
    · by_cases hb : b ∈ c.argsof.toList
      · have hs : newSignature st u a b = sig st y := hn.trans hy.sig.symm
        have hyb := hy.use b hb
        refine ⟨u, ⟨by rw [sig_mergeUseP, if_pos rfl, hn], fun z hz => ?_⟩,
          h.joined_drop hu hyb hs (Ne.symm hyu)⟩
        by_cases hzb : z = b
        · rw [hzb]
          exact mem_use_mergeUseP_self
        · rw [use_mergeUseP_ne a hzb]
          exact h.mem_use_of_not_losesEntry hd hyb hs (Ne.symm hyu) (hn ▸ hc) (hn ▸ hz) hzb
      · refine ⟨y, ⟨by rw [sig_mergeUseP, if_neg hyu, hy.sig], fun z hz => ?_⟩, .refl y⟩
        have hzb : z ≠ b := fun e => hb (by rwa [← e])
        rw [use_mergeUseP_ne a hzb]
        exact hy.use z hz
  · have hyu : y ≠ u := by
      rintro rfl
      exact hn ((h.tables.newSignature_of_notMem hu (hy.sig ▸ hac)).trans hy.sig)
    refine ⟨y, ⟨by rw [sig_mergeUseP, if_neg hyu, hy.sig], fun z hz => ?_⟩, .refl y⟩
    by_cases hzb : z = b
    · subst hzb
      exact mem_use_mergeUseP (hy.use z hz) (hy.sig ▸ hn) hyu
    · rw [use_mergeUseP_ne a hzb]
      exact hy.use z hz

/-! ### The rounds of one merge -/

/-- `y` will stand for the signature of `u` once it has been treated itself. -/
structure Waits (pre : ProverState) (a : SExp) (st : ProverState) (u y : SExp) : Prop where
  arg : a ∈ (csig pre u).argsof.toList
  sig : sig st y = csig pre u
  use : ∀ z ∈ (csig pre u).argsof.toList, z ≠ a → y ∈ use st z
  joined : Joined st y u

structure Merging (pre : ProverState) (a b : SExp) (rest : List SExp) (st : ProverState) : Prop where
  linked : Linked a b st
  roots : ∀ v, root st v = substArg a b (root pre v)
  entries : ∀ u ∈ rest, Registered st u
  registered : ∀ u, Registered st u → Registered pre u
  joined : ∀ x y, Joined pre x y → Joined st x y
  stale : ∀ u, (∀ a ∈ u.argsof.toList, root st a = a) → GroundProver.sig st u = u
  find : ∀ u, Registered st u → (∃ y, Represents st y (csig st u) ∧ Joined st y u) ∨
    ∃ y ∈ rest, Waits pre a st u y
  cong : ∀ y ∈ use st b, ∀ y' ∈ use st b, GroundProver.sig st y = GroundProver.sig st y' →
    Joined st y y'

theorem csig_mergeUseP (w : SExp) : csig (mergeUseP a b st u) w = csig st w := by
  rw [csig, csig, root_mergeUseP]

theorem Merging.csig_eq (h : Merging pre a b rest st)
    (v : SExp) : csig st v =
      .cons v.funsym (ofList ((csig pre v).argsof.toList.map (substArg a b))) := by
  have e : root st = substArg a b ∘ root pre := funext h.roots
  rw [csig, e]
  simp [csig]

theorem Waits.newSignature_eq (h : Merging pre a b rest st)
    (hu : Registered st u) (hy : Waits pre a st v u) : newSignature st u a b = csig st v := by
  obtain ⟨_, hf, _⟩ := h.linked.tables.signs u hu
  have hv : u.funsym = v.funsym := by rw [← hf, hy.sig]; rfl
  rw [h.csig_eq, newSignature, hy.sig, hv]

theorem Waits.represents (h : Merging pre a b rest st)
    (hu : Registered st u) (hy : Waits pre a st v u) :
    Represents (mergeUseP a b st u) u (csig st v) := by
  refine ⟨by rw [sig_mergeUseP, if_pos rfl, hy.newSignature_eq h hu], fun z hz => ?_⟩
  by_cases hzb : z = b
  · rw [hzb]
    exact mem_use_mergeUseP_self
  · rw [use_mergeUseP_ne a hzb]
    rw [h.csig_eq] at hz
    obtain e | ⟨hz, hza⟩ := mem_substArg (by simpa using hz)
    · exact absurd e hzb
    · exact hy.use z hz hza

theorem Waits.of_mergeUseP {y : SExp} (hab : a ≠ b) (hy : Waits pre a st v y)
    (hyu : y ≠ u) : Waits pre a (mergeUseP a b st u) v y := by
  refine ⟨hy.arg, by rw [sig_mergeUseP, if_neg hyu, hy.sig], fun z hz hza => ?_,
    hy.joined.of_mergeUseP⟩
  by_cases hzb : z = b
  · subst hzb
    refine mem_use_mergeUseP (hy.use z hz hza) (fun e => ?_) hyu
    have ha : a ∈ (newSignature st u a z).argsof.toList := by
      rw [e, hy.sig]
      exact hy.arg
    obtain e | ⟨_, e⟩ := mem_substArg (by simpa [newSignature] using ha)
    · exact hab e
    · exact e rfl
  · rw [use_mergeUseP_ne a hzb]
    exact hy.use z hz hza

theorem Merging.find_mergeUseP (hab : a ≠ b)
    (h : Merging pre a b (u :: rest) st) (hd : (mergeUseP a b st u).dropped = [])
    (hv : Registered st v) :
    (∃ y, Represents (mergeUseP a b st u) y (csig st v) ∧ Joined (mergeUseP a b st u) y v) ∨
      ∃ y ∈ rest, Waits pre a (mergeUseP a b st u) v y := by
  have hu : Registered st u := h.entries u (by simp)
  obtain ⟨y, hy, hj⟩ | ⟨y, hm, hy⟩ := h.find v hv
  · obtain ⟨y', hy', hj'⟩ :=
      h.linked.represents hab hu hd (fun z hz => h.linked.tables.csig_root z hz) hy
    exact .inl ⟨y', hy', hj'.trans hj.of_mergeUseP⟩
  · by_cases hyu : y = u
    · subst hyu
      exact .inl ⟨y, hy.represents h hu, hy.joined.of_mergeUseP⟩
    · obtain e | hm := List.mem_cons.1 hm
      · exact absurd e hyu
      · exact .inr ⟨y, hm, hy.of_mergeUseP hab hyu⟩

theorem Merging.stale_mergeUseP (hab : a ≠ b)
    (h : Merging pre a b (u :: rest) st) (hv : ∀ z ∈ v.argsof.toList, root st z = z) :
    sig (mergeUseP a b st u) v = v := by
  rw [sig_mergeUseP]
  by_cases e : v = u
  · subst e
    have hs := h.stale v hv
    have ha : a ∉ (sig st v).argsof.toList := by
      rw [hs]
      exact fun ha => hab ((hv a ha).symm.trans h.linked.eq)
    rw [if_pos rfl, h.linked.tables.newSignature_of_notMem (h.entries v (by simp)) ha, hs]
  · rw [if_neg e]
    exact h.stale v hv

theorem Merging.cong_mergeUseP
    (h : Merging pre a b (u :: rest) st) {y y' : SExp} (hy : y ∈ use (mergeUseP a b st u) b)
    (hy' : y' ∈ use (mergeUseP a b st u) b)
    (hs : sig (mergeUseP a b st u) y = sig (mergeUseP a b st u) y') :
    Joined (mergeUseP a b st u) y y' := by
  rw [use_mergeUseP_self] at hy hy'
  have key : ∀ w ∈ (use st b).filter fun v =>
      newSignature st u a b ≠ sig (signAs u (newSignature st u a b) st) v,
      w ≠ u ∧ w ∈ use st b ∧ newSignature st u a b ≠ sig st w := fun w hw => by
    obtain ⟨hw, hn⟩ := List.mem_filter.1 hw
    rw [sig_signAs] at hn
    by_cases e : w = u
    · simp [e] at hn
    · exact ⟨e, hw, by simpa [e] using hn⟩
  rw [sig_mergeUseP, sig_mergeUseP] at hs
  obtain rfl | hy := List.mem_cons.1 hy <;> obtain e | hy' := List.mem_cons.1 hy'
  · rw [e]
    exact .refl _
  · obtain ⟨hne, _, hn⟩ := key y' hy'
    rw [if_pos rfl, if_neg hne] at hs
    exact absurd hs hn
  · obtain ⟨hne, _, hn⟩ := key y hy
    rw [if_neg hne, if_pos e] at hs
    exact absurd hs.symm hn
  · obtain ⟨hne, hm, _⟩ := key y hy
    obtain ⟨hne', hm', _⟩ := key y' hy'
    rw [if_neg hne, if_neg hne'] at hs
    exact (h.cong y hm y' hm' hs).of_mergeUseP

theorem Merging.step (hab : a ≠ b)
    (h : Merging pre a b (u :: rest) st) (hd : (mergeUseP a b st u).dropped = []) :
    Merging pre a b rest (mergeUseP a b st u) := by
  have hu : Registered st u := h.entries u (by simp)
  refine ⟨h.linked.of_mergeUseP hu, fun v => ?_, fun v hv => ?_, fun v hv => ?_, fun x y hj => ?_,
    fun v hv => ?_, fun v hv => ?_, fun y hy y' hy' hs => h.cong_mergeUseP hy hy' hs⟩
  · rw [root_mergeUseP]
    exact h.roots v
  · exact (registered_mergeUseP hu).2 (h.entries v (by simp [hv]))
  · exact h.registered v ((registered_mergeUseP hu).1 hv)
  · exact (h.joined x y hj).of_mergeUseP
  · exact h.stale_mergeUseP hab (by simpa only [root_mergeUseP] using hv)
  · rw [csig_mergeUseP]
    exact h.find_mergeUseP hab hd ((registered_mergeUseP hu).1 hv)

theorem Merging.run (hab : a ≠ b)
    (h : Merging pre a b rest st) (hd : (rest.foldl (mergeUseP a b) st).dropped = []) :
    Merging pre a b [] (rest.foldl (mergeUseP a b) st) := by
  induction rest generalizing st with
  | nil => exact h
  | cons u rest ih => exact ih (h.step hab (dropped_of_foldl hd)) hd

/-! ### The whole merge -/

theorem Represents.registered {y : SExp} (ht : Tables st) (hu : Registered st u)
    (hy : Represents st y (csig st u)) : Registered st y := by
  obtain ⟨z, zs, e⟩ := List.exists_cons_of_ne_nil (ht.entries u hu).sign.ne
  exact registered_of_use (hy.use (root st z) (by simp [csig, e]))

theorem Tables.csig_csig (h : Tables st) (u : SExp) : csig st (csig st u) = csig st u := by
  have e : root st ∘ root st = root st := funext h.root_root
  simp [csig, e]

theorem Represents.csig_eq {y : SExp} (ht : Tables st) (hu : Registered st u)
    (hy : Represents st y (csig st u)) : csig st y = csig st u := by
  rw [csig_eq_of_sig ht (hy.registered ht hu) hy.sig, ht.csig_csig]

theorem csig_eq_of_sig_eq (ht : Tables st) (hu : Registered st u) (hv : Registered st v)
    (h : sig st u = sig st v) : csig st u = csig st v := by
  rw [csig_eq_of_sig ht hu h, csig_eq_of_sig ht hv rfl]

theorem Tables.root_of_link (h : Tables st) {l r v : SExp}
    (hv : substArg (root st l) (root st r) (root st v) = v) : root st v = v := by
  by_cases e : root st v = root st l
  · rw [substArg, if_pos e] at hv
    rw [← hv]
    exact h.root_root r
  · rwa [substArg, if_neg e] at hv

theorem csig_link {s : List SExp} {l r : SExp} : csig (link l r { st with s := s }) v =
    .cons v.funsym (ofList ((csig st v).argsof.toList.map (substArg l r))) := by
  have e : root (link l r { st with s := s }) = substArg l r ∘ root st := rfl
  rw [csig, e]
  simp [csig]

/-- Before the first round: the atom `equal l r` is off `s` and its sides are linked. -/
theorem Closed.merging (h : Closed st) (ht : Tables st) {s : List SExp} {l r : SExp}
    (hs : st.s = equal l r :: s) (hl : NodeIn st l) (hr : NodeIn st r) (pl : ¬ IsPair l)
    (pr : ¬ IsPair r) (hne : root st l ≠ root st r) :
    Merging st (root st l) (root st r) (use st (root st l))
      (link (root st l) (root st r) { st with s := s }) := by
  have hlink : Linked (root st l) (root st r)
      (link (root st l) (root st r) { st with s := s }) :=
    (ht.of_frame s st.dropped).linked hl hr pl pr hne
  have hroots : ∀ v, root (link (root st l) (root st r) { st with s := s }) v =
      substArg (root st l) (root st r) (root st v) := fun v => rfl
  have hj : ∀ x y, Joined st x y →
      Joined (link (root st l) (root st r) { st with s := s }) x y := by
    intro x y hj
    refine hj.mono (fun x y e => ?_) fun x y hm => ?_
    · rw [hroots, hroots, e]
    · rw [hs] at hm
      obtain e | hm := List.mem_cons.1 hm
      · obtain ⟨rfl, rfl⟩ : x = l ∧ y = r := by simpa using e
        refine .of_root ?_
        rw [hroots, hroots]
        simp [substArg]
      · exact .of_mem hm
  refine ⟨hlink, hroots, fun u hu => registered_of_use hu, fun u hu => hu, hj, fun u hu => ?_,
    fun u hu => ?_, fun y hy y' hy' e => hj _ _ ?_⟩
  · exact h.stale u fun a ha => ht.root_of_link (hu a ha)
  · obtain ⟨y, hy⟩ := h.find u hu
    have hyu : Joined st y u := h.cong y u (hy.registered ht hu) hu (hy.csig_eq ht hu)
    by_cases ha : root st l ∈ (csig st u).argsof.toList
    · exact .inr ⟨y, hy.use _ ha, ha, hy.sig, fun z hz _ => hy.use z hz, hj _ _ hyu⟩
    · have hc : csig (link (root st l) (root st r) { st with s := s }) u = csig st u := by
        rw [csig_link, map_substArg_of_notMem ha]
        simp [csig]
      exact .inl ⟨y, hc ▸ ⟨hy.sig, hy.use⟩, hj _ _ hyu⟩
  · exact h.cong y y' (registered_of_use hy) (registered_of_use hy')
      (csig_eq_of_sig_eq ht (registered_of_use hy) (registered_of_use hy') e)

theorem Merging.csig_of_notMem (h : Merging pre a b rest st)
    (hb : b ∉ (csig st v).argsof.toList) : csig st v = csig pre v := by
  have ha : a ∉ (csig pre v).argsof.toList := by
    refine fun ha => hb ?_
    rw [h.csig_eq]
    simpa using ⟨a, ha, if_pos rfl⟩
  rw [h.csig_eq, map_substArg_of_notMem ha]
  simp [csig]

theorem Merging.congruent (h : Merging pre a b [] st) (hp : Closed pre) (hu : Registered st u)
    (hv : Registered st v) (e : csig st u = csig st v) : Joined st u v := by
  by_cases hb : b ∈ (csig st u).argsof.toList
  · obtain ⟨y, hy, hj⟩ | ⟨y, hy, _⟩ := h.find u hu
    · obtain ⟨y', hy', hj'⟩ | ⟨y', hy', _⟩ := h.find v hv
      · have hs : sig st y = sig st y' := hy.sig.trans (e.trans hy'.sig.symm)
        have hyy := h.cong y (hy.use b hb) y' (hy'.use b (e ▸ hb)) hs
        exact (hj.symm.trans hyy).trans hj'
      · simp at hy'
    · simp at hy
  · have e' : csig pre u = csig pre v :=
      calc csig pre u = csig st u := (h.csig_of_notMem hb).symm
        _ = csig st v := e
        _ = csig pre v := h.csig_of_notMem (e ▸ hb)
    exact h.joined u v (hp.cong u v (h.registered u hu) (h.registered v hv) e')

/-- The pop of an atom that says nothing new. -/
theorem Closed.pop (h : Closed st) {x : SExp} {s : List SExp} (hs : st.s = x :: s)
    (hx : ∀ l r, x = equal l r → root st l = root st r) : Closed { st with s := s } := by
  refine ⟨h.stale, fun u hu => ?_, fun u v hu hv e => ?_⟩
  · obtain ⟨y, hy⟩ := h.find u hu
    exact ⟨y, hy.sig, hy.use⟩
  · have hj : Joined st u v := h.cong u v hu hv e
    refine hj.mono (fun x y (e : root st x = root st y) => e) fun y z hm => ?_
    rw [hs] at hm
    obtain e | hm := List.mem_cons.1 hm
    · exact .of_root (hx y z e.symm)
    · exact .of_mem hm

theorem Closed.of_prMergeP (h : Closed st) (ht : Tables st) {s : List SExp} {l r : SExp}
    (hs : st.s = equal l r :: s) (hl : NodeIn st l) (hr : NodeIn st r) (pl : ¬ IsPair l)
    (pr : ¬ IsPair r) (hne : root st l ≠ root st r)
    (hd : (prMergeP l r { st with s := s }).dropped = []) :
    Closed (prMergeP l r { st with s := s }) := by
  have e : prMergeP l r { st with s := s } =
      (use st (root st l)).foldl (mergeUseP (root st l) (root st r))
        (link (root st l) (root st r) { st with s := s }) := if_neg hne
  rw [e] at hd ⊢
  have hm := (h.merging ht hs hl hr pl pr hne).run hne hd
  refine ⟨hm.stale, fun u hu => ?_, fun u v hu hv e => hm.congruent h hu hv e⟩
  obtain ⟨y, hy, _⟩ | ⟨y, hy, _⟩ := hm.find u hu
  · exact ⟨y, hy⟩
  · simp at hy

end

end PVS.GroundProver
