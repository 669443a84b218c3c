import PVS.Store.FetchObj
import Mathlib.Data.List.Forall2

/-! How the objects that were fetched are filled in. -/

namespace PVS.Store

/-! ### Writing to the object that is filled in -/

section Steps

variable {l : Lisp} {h : Heap} {words : List ℕ} {hash : Value → Option ℕ} {busy : Option ℕ}
  {s s' : FetchState} {i j : ℕ} {shape : Shape}

theorem FetchState.Valid.end_le (hs : s.Valid l h words hash busy)
    (hfetched : Fetched hash s (.ref i) (.ref j)) (hshape : l.shape h i = some shape) :
    j + shape.width ≤ s.heap.length := by
  obtain ⟨j', shape', heq, hshape', hwidth, -⟩ := hs.object i _ hfetched
  cases heq
  obtain rfl := Option.some.inj (hshape.symm.trans hshape')
  exact hwidth

theorem width_pos (hshape : l.shape h i = some shape) : 0 < shape.width := by
  cases shape with
  | list elements => exact List.length_pos_iff.2 (Lisp.trueList_ref (Lisp.shape_list hshape))
  | _ => exact Nat.one_pos

/-- A write to a cell of the object that is filled in. -/
theorem FetchState.Valid.write (hs : s.Valid l h words hash (some i))
    (hfetched : Fetched hash s (.ref i) (.ref j)) (hshape : l.shape h i = some shape) {c : ℕ}
    (hjc : j ≤ c) (hcj : c < j + shape.width) {node : Node}
    (hnode : ∀ test entries, node = .hashTable test entries → test = .eq) :
    ({ s with heap := s.heap.set c node } : FetchState).Valid l h words hash (some i) := by
  -- the cells of the other objects are as they were
  have hother : ∀ i' j' shape', i' ≠ i → Fetched hash s (.ref i') (.ref j') →
      l.shape h i' = some shape' → ∀ k < shape'.width,
        (s.heap.set c node)[j' + k]? = s.heap[j' + k]? := by
    intro i' j' shape' hne hj' hshape' k hk
    apply List.getElem?_set_ne
    have := hs.disjoint i' i j' j shape' shape hne hj' hfetched hshape' hshape
    omega
  refine ⟨hs.table, hs.caseOk, hs.objSize, hs.objEnd, hs.ptrSize, hs.ptrEnd, hs.atom, ?_,
    hs.disjoint, ?_, hs.distinct, hs.busyFetched, ?_⟩
  · intro i' w hw
    obtain ⟨j', shape', rfl, hshape', hwidth, hstate⟩ := hs.object i' w hw
    refine ⟨j', shape', rfl, hshape', by rwa [List.length_set], ?_⟩
    by_cases hne : i' = i
    · exact .inl (congrArg some hne.symm)
    · exact hstate.imp_right (Or.imp_right fun hcomplete =>
        hcomplete.mono (fun _ _ hw => hw) (hother i' j' shape' hne hw hshape'))
  · intro k hk
    obtain ⟨i', q, j', shape', hq, hw, hi', hj', hshape', htext, hbusy, hfresh⟩ := hs.stack k hk
    refine ⟨i', q, j', shape', hq, hw, hi', hj', hshape', htext, hbusy, hfresh.mono ?_⟩
    rw [length_fresh]
    refine hother i' j' shape' ?_ hj' hshape'
    rintro rfl
    exact hbusy rfl
  · intro j' test entries hj'
    by_cases hcj' : c = j'
    · subst hcj'
      rw [List.getElem?_set_self] at hj'
      · exact hnode test entries (Option.some.inj hj')
      · have := (List.getElem?_eq_some_iff.1 hj').1
        rwa [List.length_set] at this
    · rw [List.getElem?_set_ne hcj'] at hj'
      exact hs.tables j' test entries hj'

/-- The object is filled in. -/
theorem FetchState.Valid.finish (hs : s.Valid l h words hash (some i))
    (hfetched : Fetched hash s (.ref i) (.ref j)) (hshape : l.shape h i = some shape)
    (hcomplete : Complete l (Fetched hash s) s.heap shape j) : s.Valid l h words hash none := by
  refine ⟨hs.table, hs.caseOk, hs.objSize, hs.objEnd, hs.ptrSize, hs.ptrEnd, hs.atom, ?_,
    hs.disjoint, ?_, hs.distinct, ?_, hs.tables⟩
  · intro i' w hw
    obtain ⟨j', shape', rfl, hshape', hwidth, hstate⟩ := hs.object i' w hw
    refine ⟨j', shape', rfl, hshape', hwidth, .inr ?_⟩
    rcases hstate with hbusy | hrest
    · cases hbusy
      obtain ⟨p, hp, hw⟩ := hw
      obtain ⟨p', hp', hw'⟩ := hfetched
      obtain rfl := Option.some.inj (hp.symm.trans hp')
      cases Option.some.inj (hw.symm.trans hw')
      obtain rfl := Option.some.inj (hshape.symm.trans hshape')
      exact .inr hcomplete
    · exact hrest
  · intro k hk
    obtain ⟨i', q, j', shape', hq, hw, hi', hj', hshape', htext, -, hfresh⟩ := hs.stack k hk
    exact ⟨i', q, j', shape', hq, hw, hi', hj', hshape', htext, by rintro ⟨⟩, hfresh⟩
  · rintro i' ⟨⟩

/-- The next object is taken from the stack. -/
theorem FetchState.Valid.pop (layout : Layout l h words hash) (hs : s.Valid l h words hash none)
    {n : ℕ} (hn : s.updateEnd = n + 1) : ∃ i p j shape, s.updatePtr[n]? = some p ∧
      s.updateObj[n]? = some (.ref j) ∧ hash (.ref i) = some p ∧
      Fetched hash s (.ref i) (.ref j) ∧ l.shape h i = some shape ∧ ¬ shape.IsText ∧
      Holds s.heap j (l.fresh j shape) ∧
      ({ s with updateEnd := n } : FetchState).Valid l h words hash (some i) := by
  obtain ⟨i, p, j, shape, hptr, hobj, hi, hj, hshape, htext, -, hfresh⟩ := hs.stack n (by omega)
  refine ⟨i, p, j, shape, hptr, hobj, hi, hj, hshape, htext, hfresh, hs.table, hs.caseOk,
    hs.objSize, ?_, hs.ptrSize, ?_, hs.atom, ?_, hs.disjoint, ?_, ?_, ?_, hs.tables⟩
  · exact (Nat.le_of_succ_le hn.ge).trans hs.objEnd
  · exact (Nat.le_of_succ_le hn.ge).trans hs.ptrEnd
  · intro i' w hw
    obtain ⟨j', shape', rfl, hshape', hwidth, hstate⟩ := hs.object i' w hw
    refine ⟨j', shape', rfl, hshape', hwidth, ?_⟩
    rcases hstate with hbusy | ⟨k, hk, hkptr⟩ | hcomplete
    · cases hbusy
    · by_cases hkn : k = n
      · subst hkn
        have heq : hash (.ref i) = hash (.ref i') := hi.trans (hptr.symm.trans hkptr)
        exact .inl (congrArg some (Value.ref.inj (layout.injective _ _ p hi (heq ▸ hi))))
      · refine .inr (.inl ⟨k, ?_, hkptr⟩)
        change k < n
        omega
    · exact .inr (.inr hcomplete)
  · intro k hk
    have hkn : k < n := hk
    obtain ⟨i', q, j', shape', hq, hw, hi', hj', hshape', htext, -, hfresh⟩ := hs.stack k (by omega)
    refine ⟨i', q, j', shape', hq, hw, hi', hj', hshape', htext, ?_, hfresh⟩
    rintro heq
    cases heq
    have : k = n := by
      apply hs.distinct k n (by omega) (by omega)
      rw [hq, hptr, ← hi', hi]
    omega
  · intro k k' hk hk' heq
    have hkn : k < n := hk
    have hkn' : k' < n := hk'
    exact hs.distinct k k' (by omega) (by omega) heq
  · rintro i' ⟨⟩
    exact ⟨_, hj⟩

theorem FetchState.Valid.injective (hs : s.Valid l h words hash busy) {v v' w : Value}
    (hv : Fetched hash s v w) (hv' : Fetched hash s v' w) : v = v' := by
  have hatom : ∀ u u', (∀ i, u ≠ .ref i) → Fetched hash s u w → Fetched hash s u' w → u = u' := by
    intro u u' hu hw hw'
    have heq := hs.atom u w hw hu
    by_cases hu' : ∃ i, u' = .ref i
    · obtain ⟨i, rfl⟩ := hu'
      obtain ⟨j, -, hj, -⟩ := hs.object i w hw'
      exact absurd (heq.symm.trans hj) (hu j)
    · exact heq.symm.trans (hs.atom u' w hw' (not_exists.1 hu'))
  by_cases hr : ∃ i, v = .ref i
  · obtain ⟨i, rfl⟩ := hr
    by_cases hr' : ∃ i', v' = .ref i'
    · obtain ⟨i', rfl⟩ := hr'
      obtain ⟨j, shape, rfl, hshape, -⟩ := hs.object i w hv
      obtain ⟨j', shape', heq, hshape', -⟩ := hs.object i' _ hv'
      cases heq
      by_contra hne
      have hii : i ≠ i' := fun heq => hne (congrArg Value.ref heq)
      have := hs.disjoint i i' j j shape shape' hii hv hv' hshape hshape'
      have := width_pos hshape
      have := width_pos hshape'
      omega
    · exact (hatom _ _ (not_exists.1 hr') hv' hv).symm
  · exact hatom _ _ (not_exists.1 hr) hv hv'

end Steps

/-! ### Filling in -/

/-- What is kept while objects are filled in. -/
structure Keeps (s s' : FetchState) : Prop where
  table : ∀ (p : ℕ) (w : Value), s.table[p]? = some (some w) → s'.table[p]? = some (some w)
  left : s'.table.count none + s'.updateEnd ≤ s.table.count none + s.updateEnd

theorem Keeps.refl (s : FetchState) : Keeps s s := ⟨fun _ _ hw => hw, le_rfl⟩

theorem Keeps.trans {s s' s'' : FetchState} (h₁ : Keeps s s') (h₂ : Keeps s' s'') : Keeps s s'' :=
  ⟨fun p w hw => h₂.table p w (h₁.table p w hw), h₂.left.trans h₁.left⟩

theorem Keeps.fetched {s s' : FetchState} (hkeeps : Keeps s s') {hash : Value → Option ℕ}
    {v w : Value} (hfetched : Fetched hash s v w) : Fetched hash s' v w := by
  obtain ⟨p, hp, hw⟩ := hfetched
  exact ⟨p, hp, hkeeps.table p w hw⟩

theorem Grows.keeps {s s' : FetchState} (hgrows : Grows s s') : Keeps s s' :=
  ⟨hgrows.table, hgrows.left⟩

theorem dotimes_induction (n : ℕ) (P : ℕ → FetchState → Prop)
    (body : ℕ → FetchState → Option FetchState) {s : FetchState} (hzero : P 0 s)
    (hstep : ∀ k < n, ∀ s, P k s → ∃ s', body k s = some s' ∧ P (k + 1) s') :
    ∃ s', dotimes body n s = some s' ∧ P n s' := by
  induction n with
  | zero => exact ⟨s, rfl, hzero⟩
  | succ n ih =>
    obtain ⟨s₁, hs₁, hP⟩ := ih fun k hk => hstep k (by omega)
    obtain ⟨s', hs', hP'⟩ := hstep n (by omega) s₁ hP
    exact ⟨s', by simp [dotimes, hs₁, hs'], hP'⟩

section Update

variable {l : Lisp} {g : Graph l} {words : List ℕ} {hash : Value → Option ℕ}
  {s s₀ : FetchState} {i j p fuel : ℕ} {shape : Shape}

/-- What holds while the object `i`, at `j`, is filled in. -/
structure Filling (g : Graph l) (words : List ℕ) (hash : Value → Option ℕ) (i j : ℕ)
    (s₀ s : FetchState) : Prop where
  valid : s.Valid l g.heap words hash (some i)
  fetched : Fetched hash s (.ref i) (.ref j)
  keeps : Keeps s₀ s

/-- A child is fetched. -/
theorem Filling.fetch (fuel : ℕ) (layout : Layout l g.heap words hash)
    (hfilling : Filling g words hash i j s₀ s) (hshape : l.shape g.heap i = some shape)
    {pushes : List Push} (hlaid : Laid hash words p pushes) (offset : ℕ) (v : Value)
    (hoffset : pushes[offset]? = some (.object v)) :
    ∃ w s', words[p + offset]?.bind (fun q => fetchObj l words (fuel + 4) q s) = some (w, s') ∧
      Filling g words hash i j s₀ s' ∧ Keeps s s' ∧ Fetched hash s' v w ∧
      ∀ k < shape.width, s'.heap[j + k]? = s.heap[j + k]? := by
  obtain ⟨q, hq, hword⟩ := hlaid.object hoffset
  have hready : Ready s v := by
    intro hunknown
    rw [hfilling.valid.ok hfilling.fetched] at hunknown
    cases hunknown
  obtain ⟨w, s', hfetch, hs', hgrows, hw⟩ := fetchObj_value fuel layout hq hready hfilling.valid
  have hend := hfilling.valid.end_le hfilling.fetched hshape
  refine ⟨w, s', ?_, ⟨hs', hgrows.fetched hfilling.fetched, hfilling.keeps.trans hgrows.keeps⟩,
    hgrows.keeps, hw, fun k hk => hgrows.heap (j + k) (by omega)⟩
  rw [hword]
  exact hfetch

/-- A cell is written. -/
theorem Filling.write (hfilling : Filling g words hash i j s₀ s)
    (hshape : l.shape g.heap i = some shape) (k : ℕ) (hk : k < shape.width) (node : Node)
    (hnode : ∀ test entries, node = .hashTable test entries → test = .eq) :
    Filling g words hash i j s₀ { s with heap := s.heap.set (j + k) node } ∧
      (s.heap.set (j + k) node)[j + k]? = some node ∧
      ∀ k' ≠ k, (s.heap.set (j + k) node)[j + k']? = s.heap[j + k']? := by
  refine ⟨⟨hfilling.valid.write hfilling.fetched hshape (by omega) (by omega) hnode,
    hfilling.fetched, hfilling.keeps.trans ⟨fun _ _ hw => hw, le_rfl⟩⟩, ?_, fun k' hk' => List.getElem?_set_ne (by omega)⟩
  have := hfilling.valid.end_le hfilling.fetched hshape
  exact List.getElem?_set_self (by omega)

/-- What filling in comes to. -/
def Filled (g : Graph l) (words : List ℕ) (hash : Value → Option ℕ) (s₀ : FetchState)
    (result : Option FetchState) : Prop :=
  ∃ s, result = some s ∧ s.Valid l g.heap words hash none ∧ Keeps s₀ s

theorem Filling.filled (hfilling : Filling g words hash i j s₀ s)
    (hshape : l.shape g.heap i = some shape)
    (hcomplete : Complete l (Fetched hash s) s.heap shape j) :
    Filled g words hash s₀ (some s) :=
  ⟨s, rfl, hfilling.valid.finish hfilling.fetched hshape hcomplete, hfilling.keeps⟩

theorem updateFetched_pair (layout : Layout l g.heap words hash)
    (hfilling : Filling g words hash i j s s) {car cdr : Value}
    (hshape : l.shape g.heap i = some (.pair car cdr)) (hi : hash (.ref i) = some p)
    (hfresh : Holds s.heap j (l.fresh j (.pair car cdr))) :
    Filled g words hash s (updateFetched l words (fuel + 4) (.ref j) p s) := by
  have hlaid := layout.pushes (Lisp.star_pair hshape).2 hi
  have hcell : s.heap[j]? = some (.cons zero zero) := hfresh 0 _ rfl
  obtain ⟨car', s₁, hfetch₁, hs₁, -, hcar, hcells₁⟩ := hfilling.fetch fuel layout hshape
    hlaid 1 car rfl
  have hcell₁ : s₁.heap[j]? = some (.cons zero zero) := (hcells₁ 0 Nat.one_pos).trans hcell
  obtain ⟨hs₂, hcell₂, -⟩ := hs₁.write hshape 0 Nat.one_pos (.cons car' zero)
    (by rintro test entries ⟨⟩)
  obtain ⟨cdr', s₃, hfetch₃, hs₃, hkeeps₃, hcdr, hcells₃⟩ := hs₂.fetch fuel layout hshape
    hlaid 2 cdr rfl
  have hcell₃ : s₃.heap[j]? = some (.cons car' zero) := (hcells₃ 0 Nat.one_pos).trans hcell₂
  obtain ⟨hs₄, hcell₄, -⟩ := hs₃.write hshape 0 Nat.one_pos (.cons car' cdr')
    (by rintro test entries ⟨⟩)
  have hupdate : updateFetched l words (fuel + 4) (.ref j) p s =
      some { s₃ with heap := s₃.heap.set j (.cons car' cdr') } := by
    simp only [updateFetched, hcell, and_self, if_pos, Option.bind_eq_bind, hfetch₁,
      Option.bind_some, setCar, hcell₁]
    rw [show s₁.heap.set j (.cons car' zero) = s₁.heap.set (j + 0) (.cons car' zero) from rfl, hfetch₃]
    simp only [Option.bind_some, setCdr, hcell₃]
  rw [hupdate]
  exact hs₄.filled hshape ⟨car', cdr', hkeeps₃.fetched hcar, hcdr, hcell₄⟩

/-- The `k`th cell of a list whose tails are in place. -/
theorem nthCell_tail {heap : Heap} {n : ℕ}
    (hcells : ∀ k < n, ∃ v, heap[j + k]? = some (.cons v (listTail l j n (k + 1)))) {k m : ℕ}
    (hkm : m + k < n) : nthCell heap k (.ref (j + m)) = some (j + m + k) := by
  induction k generalizing m with
  | zero => rfl
  | succ k ih =>
    obtain ⟨v, hv⟩ := hcells m (by omega)
    simp only [nthCell, hv]
    rw [listTail, if_pos (by omega), ih (m := m + 1) (by omega)]
    congr 1
    omega

theorem updateFetched_list (layout : Layout l g.heap words hash)
    (hfilling : Filling g words hash i j s s) {elements : List Value}
    (hshape : l.shape g.heap i = some (.list elements)) (hi : hash (.ref i) = some p)
    (hfresh : Holds s.heap j (l.fresh j (.list elements))) :
    Filled g words hash s (updateFetched l words (fuel + 4) (.ref j) p s) := by
  have hlaid := layout.pushes (Lisp.star_list hshape) hi
  have hword : words[p + 1]? = some elements.length := hlaid.2.1
  have hpos : 0 < elements.length := width_pos hshape
  have hcells : ∀ k < elements.length,
      s.heap[j + k]? = some (.cons (.symbol l.nil) (listTail l j elements.length (k + 1))) := by
    intro k hk
    apply hfresh k
    simp [Lisp.fresh, hk]
  -- the elements before `k` are filled in
  let P (k : ℕ) (s' : FetchState) : Prop := Filling g words hash i j s s' ∧
    (∀ m v, m < k → elements[m]? = some v → ∃ w, Fetched hash s' v w ∧
      s'.heap[j + m]? = some (.cons w (listTail l j elements.length (m + 1)))) ∧
    ∀ m < elements.length, ∃ v,
      s'.heap[j + m]? = some (.cons v (listTail l j elements.length (m + 1)))
  have hzero : P 0 s := ⟨hfilling, fun m v hm => absurd hm (Nat.not_lt_zero m), fun m hm => ⟨_, hcells m hm⟩⟩
  obtain ⟨s', hloop, hs', hfilled, -⟩ := dotimes_induction elements.length P
    (fun k s => (words[p + (k + 2)]?.bind fun q => fetchObj l words (fuel + 4) q s).bind
      fun x => (nthCell x.2.heap k (.ref j)).bind fun cell => setCar x.1 cell x.2) hzero (by
    rintro k hk s₁ ⟨hs₁, hfilled, htails⟩
    obtain ⟨w, s₂, hfetch, hs₂, hkeeps, hw, hcells₂⟩ := hs₁.fetch fuel layout hshape hlaid
      (k + 2) elements[k] (by simp [Lisp.storeList, List.getElem?_eq_getElem hk])
    have htails₂ : ∀ m < elements.length, ∃ v,
        s₂.heap[j + m]? = some (.cons v (listTail l j elements.length (m + 1))) := by
      intro m hm
      obtain ⟨v, hv⟩ := htails m hm
      exact ⟨v, (hcells₂ m hm).trans hv⟩
    have hnth : nthCell s₂.heap k (.ref j) = some (j + k) := nthCell_tail (m := 0) htails₂ (by omega)
    obtain ⟨v, hv⟩ := htails₂ k hk
    obtain ⟨hs₃, hself, hother⟩ := hs₂.write hshape k hk
      (.cons w (listTail l j elements.length (k + 1))) (by rintro test entries ⟨⟩)
    refine ⟨_, by simp only [hfetch, Option.bind_some, hnth, setCar, hv], hs₃, ?_, ?_⟩
    · intro m u hm hu
      by_cases hmk : m = k
      · subst hmk
        rw [List.getElem?_eq_getElem hk] at hu
        cases hu
        exact ⟨w, hw, hself⟩
      · obtain ⟨w', hw', hcell⟩ := hfilled m u (by omega) hu
        refine ⟨w', hkeeps.fetched hw', ?_⟩
        rw [hother m hmk, hcells₂ m (List.getElem?_eq_some_iff.1 hu).1, hcell]
    · intro m hm
      by_cases hmk : m = k
      · subst hmk
        exact ⟨w, hself⟩
      · obtain ⟨u, hu⟩ := htails₂ m hm
        exact ⟨u, (hother m hmk).trans hu⟩)
  have hupdate : updateFetched l words (fuel + 4) (.ref j) p s = some s' := by
    have hcell : s.heap[j]? = _ := hcells 0 hpos
    have hnil : ¬ (Value.symbol l.nil = zero ∧ listTail l j elements.length (0 + 1) = zero) := by
      rintro ⟨⟨⟩, -⟩
    simp only [updateFetched, hcell, if_neg hnil, hword, Option.bind_eq_bind, Option.bind_some]
    exact hloop
  rw [hupdate]
  exact hs'.filled hshape fun k v hk => hfilled k v (List.getElem?_eq_some_iff.1 hk).1 hk

theorem updateFetched_object (layout : Layout l g.heap words hash)
    (hfilling : Filling g words hash i j s s) {type : Symbol} {slots : List Value}
    (hshape : l.shape g.heap i = some (.object type slots)) (hi : hash (.ref i) = some p)
    (hfresh : Holds s.heap j (l.fresh j (.object type slots))) :
    Filled g words hash s (updateFetched l words (fuel + 4) (.ref j) p s) := by
  have hlaid := layout.pushes (Lisp.star_object hshape).2 hi
  have hcell : s.heap[j]? = some (.instance type (List.replicate slots.length (.symbol l.nil))) :=
    hfresh 0 _ rfl
  -- the first `k` slots are filled in
  let P (k : ℕ) (s' : FetchState) : Prop := Filling g words hash i j s s' ∧
    ∃ slots', s'.heap[j]? = some (.instance type slots') ∧ slots'.length = slots.length ∧
      ∀ m v, m < k → slots[m]? = some v → ∃ w, slots'[m]? = some w ∧ Fetched hash s' v w
  have hzero : P 0 s :=
    ⟨hfilling, _, hcell, List.length_replicate, fun m v hm => absurd hm (Nat.not_lt_zero m)⟩
  obtain ⟨s', hloop, hs', slots', hcell', hlength, hfilled⟩ := dotimes_induction slots.length
    P (fun k s => (words[p + (k + 1)]?.bind fun q =>
      fetchObj l words (fuel + 4) q s).bind fun x => setSlot x.1 k j x.2) hzero (by
    rintro k hk s₁ ⟨hs₁, slots₁, hcell₁, hlength₁, hfilled₁⟩
    obtain ⟨w, s₂, hfetch, hs₂, hkeeps, hw, hcells₂⟩ := hs₁.fetch fuel layout hshape hlaid
      (k + 1) slots[k] (by simp [storeInstance, List.getElem?_eq_getElem hk])
    have hcell₂ : s₂.heap[j]? = some (.instance type slots₁) := (hcells₂ 0 Nat.one_pos).trans hcell₁
    obtain ⟨hs₃, hself, -⟩ := hs₂.write hshape 0 Nat.one_pos
      (.instance type (slots₁.set k w)) (by rintro test entries ⟨⟩)
    refine ⟨{ s₂ with heap := s₂.heap.set j (.instance type (slots₁.set k w)) },
      by simp only [hfetch, Option.bind_some, setSlot, hcell₂], hs₃, _, hself, ?_, ?_⟩
    · rw [List.length_set, hlength₁]
    · intro m u hm hu
      by_cases hmk : m = k
      · subst hmk
        rw [List.getElem?_eq_getElem hk] at hu
        cases hu
        exact ⟨w, List.getElem?_set_self (by omega), hw⟩
      · obtain ⟨w', hw', hfetched⟩ := hfilled₁ m u (by omega) hu
        exact ⟨w', (List.getElem?_set_ne (Ne.symm hmk)).trans hw', hkeeps.fetched hfetched⟩)
  have hupdate : updateFetched l words (fuel + 4) (.ref j) p s = some s' := by
    simp only [updateFetched, hcell, List.length_replicate, Option.bind_eq_bind]
    exact hloop
  rw [hupdate]
  refine hs'.filled hshape ⟨slots', hcell', List.forall₂_of_length_eq_of_get hlength.symm ?_⟩
  intro m hm hm'
  obtain ⟨w, hw, hfetched⟩ := hfilled m (slots[m]) hm (List.getElem?_eq_getElem hm)
  rw [List.getElem?_eq_getElem hm'] at hw
  cases hw
  exact hfetched

/-! ### Hash tables -/

theorem putEntry_new {key val : Value} {entries : List (Value × Value)}
    (hnew : ∀ ent ∈ entries, ent.1 ≠ key) : putEntry key val entries = entries ++ [(key, val)] := by
  induction entries with
  | nil => rfl
  | cons ent entries ih =>
    rw [putEntry, if_neg (hnew ent List.mem_cons_self),
      ih fun ent' hent' => hnew ent' (List.mem_cons_of_mem _ hent')]
    rfl

/-- The words of the `k`th entry. -/
theorem entry_pushes {entries : List (Value × Value)} {k : ℕ} {ent : Value × Value}
    (hk : entries[k]? = some ent) :
    (entries.flatMap fun ent => [Push.object ent.1, .object ent.2])[2 * k]? = some (.object ent.1) ∧
      (entries.flatMap fun ent => [Push.object ent.1, .object ent.2])[2 * k + 1]? =
        some (.object ent.2) := by
  induction entries generalizing k with
  | nil => cases hk
  | cons e entries ih =>
    cases k with
    | zero =>
      cases hk
      exact ⟨rfl, rfl⟩
    | succ k => exact ih hk

theorem mem_of_forall₂ {α β : Type} {R : α → β → Prop} {xs : List α} {ys : List β}
    (hall : List.Forall₂ R xs ys) {y : β} (hy : y ∈ ys) : ∃ x ∈ xs, R x y := by
  induction hall with
  | nil => cases hy
  | cons hxy _ ih =>
    rcases List.mem_cons.1 hy with rfl | hy
    · exact ⟨_, List.mem_cons_self, hxy⟩
    · obtain ⟨x, hx, hxy⟩ := ih hy
      exact ⟨x, List.mem_cons_of_mem _ hx, hxy⟩

theorem updateFetched_table (layout : Layout l g.heap words hash)
    (hfilling : Filling g words hash i j s s) {test : Test} {entries : List (Value × Value)}
    (hshape : l.shape g.heap i = some (.table test entries)) (hi : hash (.ref i) = some p)
    (hfresh : Holds s.heap j (l.fresh j (.table test entries))) :
    Filled g words hash s (updateFetched l words (fuel + 4) (.ref j) p s) := by
  obtain ⟨hnode, hstar⟩ := Lisp.star_table hshape
  have hlaid := layout.pushes hstar hi
  have hword : words[p + 1]? = some entries.reverse.length := hlaid.2.1
  have hcell : s.heap[j]? = some (.hashTable .eq []) := hfresh 0 _ rfl
  have hkeys : (entries.reverse.map Prod.fst).Nodup := by
    rw [List.map_reverse, List.nodup_reverse]
    exact g.keys test entries (List.mem_of_getElem? hnode)
  have heq : ∀ entries', ∀ test entries, Node.hashTable .eq entries' = .hashTable test entries →
      test = .eq := by
    rintro entries' test entries ⟨⟩
    rfl
  -- the first `k` entries are put in
  let R (s' : FetchState) (ent ent' : Value × Value) : Prop :=
    Fetched hash s' ent.1 ent'.1 ∧ Fetched hash s' ent.2 ent'.2
  let P (k : ℕ) (s' : FetchState) : Prop := Filling g words hash i j s s' ∧
    ∃ entries', s'.heap[j]? = some (.hashTable .eq entries') ∧
      List.Forall₂ (R s') (entries.reverse.take k) entries'
  have hzero : P 0 s := ⟨hfilling, [], hcell, .nil⟩
  obtain ⟨s', hloop, hs', entries', hcell', hall⟩ := dotimes_induction
    entries.reverse.length P (fun k s =>
      (words[p + 2 * (k + 1)]?.bind fun q => fetchObj l words (fuel + 4) q s).bind fun x =>
        (words[p + (1 + 2 * (k + 1))]?.bind fun q => fetchObj l words (fuel + 4) q x.2).bind fun y =>
          setEntry x.1 y.1 j y.2) hzero (by
    rintro k hk s₁ ⟨hs₁, entries₁, hcell₁, hall₁⟩
    obtain ⟨ent, hent⟩ : ∃ ent, entries.reverse[k]? = some ent :=
      ⟨_, List.getElem?_eq_getElem hk⟩
    obtain ⟨hpush₁, hpush₂⟩ := entry_pushes hent
    obtain ⟨key, s₂, hfetch₂, hs₂, hkeeps₂, hkey, hcells₂⟩ := hs₁.fetch fuel layout hshape
      hlaid (2 * (k + 1)) ent.1 (by
        rw [show 2 * (k + 1) = 2 * k + 1 + 1 by omega]
        exact hpush₁)
    obtain ⟨val, s₃, hfetch₃, hs₃, hkeeps₃, hval, hcells₃⟩ := hs₂.fetch fuel layout hshape
      hlaid (1 + 2 * (k + 1)) ent.2 (by
        rw [show 1 + 2 * (k + 1) = 2 * k + 1 + 1 + 1 by omega]
        exact hpush₂)
    have hcell₃ : s₃.heap[j]? = some (.hashTable .eq entries₁) :=
      (hcells₃ 0 Nat.one_pos).trans ((hcells₂ 0 Nat.one_pos).trans hcell₁)
    have hall₃ : List.Forall₂ (R s₃) (entries.reverse.take k) entries₁ :=
      hall₁.imp fun x y hxy => ⟨(hkeeps₂.trans hkeeps₃).fetched hxy.1,
        (hkeeps₂.trans hkeeps₃).fetched hxy.2⟩
    have htake : entries.reverse.take (k + 1) = entries.reverse.take k ++ [ent] := by
      rw [List.take_add_one, hent]
      rfl
    have hnew : ∀ ent' ∈ entries₁, ent'.1 ≠ key := by
      rintro ent' hent' rfl
      obtain ⟨old, hold, hfetched, -⟩ := mem_of_forall₂ hall₃ hent'
      have hsame : old.1 = ent.1 := hs₃.valid.injective hfetched (hkeeps₃.fetched hkey)
      have hnodup : ((entries.reverse.take (k + 1)).map Prod.fst).Nodup :=
        hkeys.sublist ((List.take_sublist _ _).map _)
      rw [htake, List.map_append, List.nodup_append] at hnodup
      exact hnodup.2.2 old.1 (List.mem_map_of_mem hold) ent.1 (by simp) hsame
    obtain ⟨hs₄, hself, -⟩ := hs₃.write hshape 0 Nat.one_pos
      (.hashTable .eq (entries₁ ++ [(key, val)])) (heq _)
    refine ⟨{ s₃ with heap := s₃.heap.set j (.hashTable .eq (entries₁ ++ [(key, val)])) },
      by simp only [hfetch₂, hfetch₃, Option.bind_some, setEntry, hcell₃, putEntry_new hnew],
      hs₄, _, hself, ?_⟩
    rw [htake]
    exact List.rel_append hall₃ (.cons ⟨hkeeps₃.fetched hkey, hval⟩ .nil))
  have hupdate : updateFetched l words (fuel + 4) (.ref j) p s = some s' := by
    simp only [updateFetched, hcell, hword, Option.bind_eq_bind, Option.bind_some]
    exact hloop
  rw [hupdate]
  rw [List.take_length] at hall
  exact hs'.filled hshape ⟨entries', hcell', hall⟩

/-! ### The loop -/

/-- The object at the top of the stack is filled in. -/
theorem updateFetched_filled (fuel : ℕ) (layout : Layout l g.heap words hash)
    (hfilling : Filling g words hash i j s s) (hshape : l.shape g.heap i = some shape)
    (htext : ¬ shape.IsText) (hi : hash (.ref i) = some p)
    (hfresh : Holds s.heap j (l.fresh j shape)) :
    Filled g words hash s (updateFetched l words (fuel + 4) (.ref j) p s) := by
  cases shape with
  | text node => exact absurd trivial htext
  | list elements => exact updateFetched_list layout hfilling hshape hi hfresh
  | pair car cdr => exact updateFetched_pair layout hfilling hshape hi hfresh
  | table test entries => exact updateFetched_table layout hfilling hshape hi hfresh
  | object type slots => exact updateFetched_object layout hfilling hshape hi hfresh

theorem updateLoop_filled (fuel : ℕ) (layout : Layout l g.heap words hash) (rounds : ℕ) (s : FetchState)
    (hs : s.Valid l g.heap words hash none) (hrounds : s.table.count none + s.updateEnd ≤ rounds) :
    ∃ s', updateLoop l words (fuel + 4) rounds s = some s' ∧ s'.Valid l g.heap words hash none ∧
      s'.updateEnd = 0 ∧ Keeps s s' := by
  induction rounds generalizing s with
  | zero =>
    have hend : s.updateEnd = 0 := by omega
    exact ⟨s, if_pos hend, hs, hend, .refl s⟩
  | succ rounds ih =>
    by_cases hend : s.updateEnd = 0
    · exact ⟨s, by rw [updateLoop, if_pos hend], hs, hend, .refl s⟩
    · obtain ⟨n, hn⟩ := Nat.exists_eq_succ_of_ne_zero hend
      obtain ⟨i, p, j, shape, hptr, hobj, hi, hj, hshape, htext, hfresh, hpop⟩ := hs.pop layout hn
      have hkeeps : Keeps s { s with updateEnd := n } :=
        ⟨fun _ _ hw => hw, Nat.add_le_add_left (Nat.le_of_succ_le hn.ge) _⟩
      obtain ⟨s₁, hupdate, hs₁, hkeeps₁⟩ := updateFetched_filled fuel layout
        ⟨hpop, hj, .refl _⟩ hshape htext hi hfresh
      have hleft : s₁.table.count none + s₁.updateEnd ≤ s.table.count none + n := hkeeps₁.left
      obtain ⟨s', hloop, hs', hend', hkeeps'⟩ := ih s₁ hs₁ (by omega)
      refine ⟨s', ?_, hs', hend', hkeeps.trans (hkeeps₁.trans hkeeps')⟩
      have hpred : s.updateEnd - 1 = n := by omega
      rw [updateLoop, if_neg hend]
      simp only [hpred, hptr, hobj, Option.bind_eq_bind, Option.bind_some, hupdate]
      exact hloop

end Update

end PVS.Store
