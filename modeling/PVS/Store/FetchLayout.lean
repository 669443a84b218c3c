import PVS.Store.GraphLayout
import PVS.Store.FetchObject

/-! What holds while a graph is fetched. -/

namespace PVS.Store

/-! ### Buffers -/

section Buffers

variable {α : Type} {initial x : α} {array : List α} {currentSize size i : ℕ}

theorem ensureVectorSize_grows (initial : α) (size : ℕ) (hsize : currentSize ≤ array.length) :
    size ≤ (ensureVectorSize initial array currentSize size).2 ∧
      (ensureVectorSize initial array currentSize size).2 ≤
        (ensureVectorSize initial array currentSize size).1.length := by
  rw [ensureVectorSize]
  split_ifs with hlt
  · simp
    omega
  · exact ⟨not_lt.1 hlt, hsize⟩

theorem ensureVectorSize_keeps (hsize : currentSize ≤ array.length) (hi : i < currentSize) :
    (ensureVectorSize initial array currentSize size).1[i]? = array[i]? := by
  rw [ensureVectorSize]
  split_ifs
  · rw [List.getElem?_append_left (by rw [List.length_take]; omega), List.getElem?_take_of_lt hi]
  · rfl

end Buffers

/-- The two arrays of the stack, after a push. -/
structure Queued (s : FetchState) (obj : Value) (ptr : ℕ) (s' : FetchState) : Prop where
  table : s'.table = s.table
  heap : s'.heap = s.heap
  caseOk : s'.caseOk = s.caseOk
  updateEnd : s'.updateEnd = s.updateEnd + 1
  objSize : s'.updateObjSize ≤ s'.updateObj.length
  objEnd : s'.updateEnd ≤ s'.updateObjSize
  ptrSize : s'.updatePtrSize ≤ s'.updatePtr.length
  ptrEnd : s'.updateEnd ≤ s'.updatePtrSize
  obj : s'.updateObj[s.updateEnd]? = some obj
  ptr : s'.updatePtr[s.updateEnd]? = some ptr
  objs : ∀ k < s.updateEnd, s'.updateObj[k]? = s.updateObj[k]?
  ptrs : ∀ k < s.updateEnd, s'.updatePtr[k]? = s.updatePtr[k]?

theorem queueUpdateFetched_spec {s : FetchState} (hobjs : s.updateObjSize ≤ s.updateObj.length)
    (hobj : s.updateEnd ≤ s.updateObjSize) (hptrs : s.updatePtrSize ≤ s.updatePtr.length)
    (hptr : s.updateEnd ≤ s.updatePtrSize) {l : Lisp} (obj : Value) (ptr : ℕ) :
    ∃ s', s.queueUpdateFetched l obj ptr = some s' ∧ Queued s obj ptr s' := by
  let objs := ensureVectorSize (.symbol l.nil) s.updateObj s.updateObjSize (s.updateEnd + 1)
  let ptrs := ensureVectorSize 0 s.updatePtr s.updatePtrSize (s.updateEnd + 1)
  have hobjs' : s.updateEnd + 1 ≤ objs.2 ∧ objs.2 ≤ objs.1.length := ensureVectorSize_grows _ _ hobjs
  have hptrs' : s.updateEnd + 1 ≤ ptrs.2 ∧ ptrs.2 ≤ ptrs.1.length := ensureVectorSize_grows _ _ hptrs
  refine ⟨{ s with
    updateObj := objs.1.set s.updateEnd obj, updateObjSize := objs.2
    updatePtr := ptrs.1.set s.updateEnd ptr, updatePtrSize := ptrs.2
    updateEnd := s.updateEnd + 1 }, ?_, ?_⟩
  · have hobjLt : s.updateEnd < objs.1.length := by omega
    have hptrLt : s.updateEnd < ptrs.1.length := by omega
    rw [FetchState.queueUpdateFetched, setElement_eq_some hobjLt, setElement_eq_some hptrLt]
    rfl
  · refine ⟨rfl, rfl, rfl, rfl, ?_, hobjs'.1, ?_, hptrs'.1, ?_, ?_, ?_, ?_⟩
    · rw [List.length_set]
      exact hobjs'.2
    · rw [List.length_set]
      exact hptrs'.2
    · exact List.getElem?_set_self (by omega)
    · exact List.getElem?_set_self (by omega)
    · intro k hk
      exact (List.getElem?_set_ne (by omega)).trans (ensureVectorSize_keeps hobjs (by omega))
    · intro k hk
      exact (List.getElem?_set_ne (by omega)).trans (ensureVectorSize_keeps hptrs (by omega))

/-! ### Fresh and filled objects -/

def Shape.width : Shape → ℕ
  | .list elements => elements.length
  | _ => 1

/-- The cells that are made for an object at the address `j`. -/
def Lisp.fresh (l : Lisp) (j : ℕ) : Shape → List Node
  | .text node => [node]
  | .list elements => (List.range elements.length).map fun k =>
      .cons (.symbol l.nil) (listTail l j elements.length (k + 1))
  | .pair _ _ => [.cons zero zero]
  | .table _ _ => [.hashTable .eq []]
  | .object type slots => [.instance type (List.replicate slots.length (.symbol l.nil))]

theorem length_fresh (l : Lisp) (j : ℕ) (shape : Shape) :
    (l.fresh j shape).length = shape.width := by
  cases shape <;> simp [Lisp.fresh, Shape.width]

/-- The cells from `j` on. -/
def Holds (h : Heap) (j : ℕ) (nodes : List Node) : Prop :=
  ∀ k node, nodes[k]? = some node → h[j + k]? = some node

/-- An object of this shape, filled in with what was fetched. -/
def Complete (l : Lisp) (fetched : Value → Value → Prop) (h : Heap) : Shape → ℕ → Prop
  | .text node, j => h[j]? = some node
  | .list elements, j => ∀ k v, elements[k]? = some v →
      ∃ w, fetched v w ∧ h[j + k]? = some (.cons w (listTail l j elements.length (k + 1)))
  | .pair car cdr, j => ∃ car' cdr', fetched car car' ∧ fetched cdr cdr' ∧
      h[j]? = some (.cons car' cdr')
  | .table _ entries, j => ∃ entries', h[j]? = some (.hashTable .eq entries') ∧
      List.Forall₂ (fun ent ent' => fetched ent.1 ent'.1 ∧ fetched ent.2 ent'.2) entries.reverse
        entries'
  | .object type slots, j => ∃ slots', h[j]? = some (.instance type slots') ∧
      List.Forall₂ fetched slots slots'

theorem Complete.mono {l : Lisp} {fetched fetched' : Value → Value → Prop} {h h' : Heap}
    {shape : Shape} {j : ℕ} (hcomplete : Complete l fetched h shape j)
    (hfetched : ∀ v w, fetched v w → fetched' v w)
    (hcells : ∀ k < shape.width, h'[j + k]? = h[j + k]?) : Complete l fetched' h' shape j := by
  cases shape with
  | text node => exact (hcells 0 Nat.one_pos).trans hcomplete
  | list elements =>
    intro k v hk
    obtain ⟨w, hw, hcell⟩ := hcomplete k v hk
    exact ⟨w, hfetched v w hw, (hcells k (List.getElem?_eq_some_iff.1 hk).1).trans hcell⟩
  | pair car cdr =>
    obtain ⟨car', cdr', hcar, hcdr, hcell⟩ := hcomplete
    exact ⟨car', cdr', hfetched _ _ hcar, hfetched _ _ hcdr, (hcells 0 Nat.one_pos).trans hcell⟩
  | table test entries =>
    obtain ⟨entries', hcell, hentries⟩ := hcomplete
    exact ⟨entries', (hcells 0 Nat.one_pos).trans hcell,
      hentries.imp fun ent ent' hent => ⟨hfetched _ _ hent.1, hfetched _ _ hent.2⟩⟩
  | object type slots =>
    obtain ⟨slots', hcell, hslots⟩ := hcomplete
    exact ⟨slots', (hcells 0 Nat.one_pos).trans hcell, hslots.imp hfetched⟩

theorem Holds.mono {h h' : Heap} {j : ℕ} {nodes : List Node} (hholds : Holds h j nodes)
    (hcells : ∀ k < nodes.length, h'[j + k]? = h[j + k]?) : Holds h' j nodes :=
  fun k node hk => (hcells k (List.getElem?_eq_some_iff.1 hk).1).trans (hholds k node hk)

/-! ### The invariant -/

section Invariant

variable (l : Lisp) (h : Heap) (words : List ℕ) (hash : Value → Option ℕ)

def Fetched (s : FetchState) (v w : Value) : Prop :=
  ∃ p, hash v = some p ∧ s.table[p]? = some (some w)

/-- The object is on the stack. -/
def Pending (s : FetchState) (i : ℕ) : Prop := ∃ k < s.updateEnd, s.updatePtr[k]? = hash (.ref i)

/-- What holds between two calls of `fetch-obj`; the object at `busy` is being filled in. -/
structure FetchState.Valid (busy : Option ℕ) (s : FetchState) : Prop where
  table : words.length ≤ s.table.length
  caseOk : s.caseOk = .ok ∨ s.caseOk = .unknown ∧ ∀ (p : ℕ) (w : Value), s.table[p]? ≠ some (some w)
  objSize : s.updateObjSize ≤ s.updateObj.length
  objEnd : s.updateEnd ≤ s.updateObjSize
  ptrSize : s.updatePtrSize ≤ s.updatePtr.length
  ptrEnd : s.updateEnd ≤ s.updatePtrSize
  atom : ∀ v w, Fetched hash s v w → (∀ i, v ≠ .ref i) → w = v
  object : ∀ i w, Fetched hash s (.ref i) w → ∃ j shape, w = .ref j ∧ l.shape h i = some shape ∧
    j + shape.width ≤ s.heap.length ∧
      (busy = some i ∨ Pending hash s i ∨ Complete l (Fetched hash s) s.heap shape j)
  disjoint : ∀ i i' j j' shape shape', i ≠ i' → Fetched hash s (.ref i) (.ref j) →
    Fetched hash s (.ref i') (.ref j') → l.shape h i = some shape → l.shape h i' = some shape' →
    j + shape.width ≤ j' ∨ j' + shape'.width ≤ j
  stack : ∀ k < s.updateEnd, ∃ i p j shape, s.updatePtr[k]? = some p ∧
    s.updateObj[k]? = some (.ref j) ∧ hash (.ref i) = some p ∧ Fetched hash s (.ref i) (.ref j) ∧
    l.shape h i = some shape ∧ ¬ shape.IsText ∧ busy ≠ some i ∧ Holds s.heap j (l.fresh j shape)
  distinct : ∀ k k', k < s.updateEnd → k' < s.updateEnd → s.updatePtr[k]? = s.updatePtr[k']? →
    k = k'
  busyFetched : ∀ i, busy = some i → ∃ w, Fetched hash s (.ref i) w
  tables : ∀ (j : ℕ) (test : Test) (entries : List (Value × Value)), s.heap[j]? = some (.hashTable test entries) → test = .eq

/-- What a call of `fetch-obj` keeps. -/
structure Grows (s s' : FetchState) : Prop where
  length : s.heap.length ≤ s'.heap.length
  heap : ∀ j < s.heap.length, s'.heap[j]? = s.heap[j]?
  table : ∀ (p : ℕ) (w : Value), s.table[p]? = some (some w) → s'.table[p]? = some (some w)
  left : s'.table.count none + s'.updateEnd ≤ s.table.count none + s.updateEnd

end Invariant

theorem Grows.refl (s : FetchState) : Grows s s := ⟨le_rfl, fun _ _ => rfl, fun _ _ hw => hw, le_rfl⟩

theorem Grows.trans {s s' s'' : FetchState} (h₁ : Grows s s') (h₂ : Grows s' s'') : Grows s s'' where
  length := h₁.length.trans h₂.length
  heap j hj := (h₂.heap j (hj.trans_le h₁.length)).trans (h₁.heap j hj)
  table p w hw := h₂.table p w (h₁.table p w hw)
  left := h₂.left.trans h₁.left

theorem Grows.fetched {s s' : FetchState} (hgrows : Grows s s') {hash : Value → Option ℕ}
    {v w : Value} (hfetched : Fetched hash s v w) : Fetched hash s' v w := by
  obtain ⟨p, hp, hw⟩ := hfetched
  exact ⟨p, hp, hgrows.table p w hw⟩

/-! ### Steps -/

section Steps

variable {l : Lisp} {h : Heap} {words : List ℕ} {hash : Value → Option ℕ} {busy : Option ℕ}
  {s s' : FetchState} {p : ℕ}

theorem FetchState.Valid.ok (hs : s.Valid l h words hash busy) {v w : Value}
    (hfetched : Fetched hash s v w) : s.caseOk = .ok := by
  obtain ⟨q, -, hq⟩ := hfetched
  rcases hs.caseOk with hok | ⟨-, hnone⟩
  · exact hok
  · exact absurd hq (hnone q w)

theorem FetchState.Valid.setCaseOk (hs : s.Valid l h words hash busy) :
    ({ s with caseOk := .ok } : FetchState).Valid l h words hash busy :=
  { hs with caseOk := .inl rfl }

/-- What is fetched after an entry of the table is set. -/
theorem fetched_set {v w x y : Value} (layout : Layout l h words hash) (hv : hash v = some p)
    (htable : s'.table = s.table.set p (some x)) (hfetched : Fetched hash s' w y) :
    w = v ∧ y = x ∨ w ≠ v ∧ Fetched hash s w y := by
  obtain ⟨q, hq, hy⟩ := hfetched
  rw [htable] at hy
  by_cases hwv : w = v
  · subst hwv
    obtain rfl := Option.some.inj (hv.symm.trans hq)
    have hlt : p < (s.table.set p (some x)).length := (List.getElem?_eq_some_iff.1 hy).1
    rw [List.getElem?_set_self (by simpa using hlt)] at hy
    cases hy
    exact .inl ⟨rfl, rfl⟩
  · refine .inr ⟨hwv, q, hq, ?_⟩
    rw [List.getElem?_set_ne] at hy
    · exact hy
    · rintro rfl
      exact hwv (layout.injective w v p hq hv)

theorem count_set_le {table : List (Option Value)} {x : Value} (hlt : p < table.length) :
    (table.set p (some x)).count none ≤ table.count none := by
  rw [List.count_set hlt]
  simp

theorem count_set_lt {table : List (Option Value)} {x : Value} (hnone : table[p]? = some none) :
    (table.set p (some x)).count none + 1 = table.count none := by
  obtain ⟨hlt, hp⟩ := List.getElem?_eq_some_iff.1 hnone
  have hpos : 0 < table.count none := List.count_pos_iff.2 (List.mem_of_getElem? hnone)
  rw [List.count_set hlt, hp]
  simp
  omega

/-- What is fetched without a change to the heap. -/
structure FetchesAtom (hash : Value → Option ℕ) (s s' : FetchState) : Prop where
  grows : Grows s s'
  heap : s'.heap = s.heap
  refs : ∀ i p, hash (.ref i) = some p → s'.table[p]? = s.table[p]?

theorem FetchesAtom.refl (s : FetchState) : FetchesAtom hash s s := ⟨.refl s, rfl, fun _ _ _ => rfl⟩

theorem FetchesAtom.trans {s'' : FetchState} (h₁ : FetchesAtom hash s s')
    (h₂ : FetchesAtom hash s' s'') : FetchesAtom hash s s'' :=
  ⟨h₁.grows.trans h₂.grows, h₂.heap.trans h₁.heap,
    fun i p hp => (h₂.refs i p hp).trans (h₁.refs i p hp)⟩

theorem FetchesAtom.setCaseOk (caseOk : CaseOk) : FetchesAtom hash s { s with caseOk := caseOk } :=
  ⟨⟨le_rfl, fun _ _ => rfl, fun _ _ hw => hw, le_rfl⟩, rfl, fun _ _ _ => rfl⟩

/-- The last step of a fetch of an atom. -/
theorem FetchState.Valid.setAtom (layout : Layout l h words hash) (hs : s.Valid l h words hash busy)
    (hok : s.caseOk = .ok) {v : Value} (hatom : ∀ i, v ≠ .ref i) (hv : hash v = some p) :
    ∃ s', s.setTable p v = some s' ∧ s'.Valid l h words hash busy ∧ FetchesAtom hash s s' ∧
      Fetched hash s' v v := by
  have hlt : p < s.table.length := (layout.lt hv).trans_le hs.table
  let s' : FetchState := { s with table := s.table.set p (some v) }
  have hself : s'.table[p]? = some (some v) := List.getElem?_set_self hlt
  have hgrows : Grows s s' := by
    refine ⟨le_rfl, fun _ _ => rfl, ?_, Nat.add_le_add_right (count_set_le hlt) _⟩
    intro q w hq
    by_cases hqp : q = p
    · subst hqp
      rw [hs.atom v w ⟨q, hv, hq⟩ hatom]
      exact hself
    · exact (List.getElem?_set_ne (Ne.symm hqp)).trans hq
  have hfetched : ∀ u w, Fetched hash s' u w → u = v ∧ w = v ∨ u ≠ v ∧ Fetched hash s u w :=
    fun u w huw => fetched_set layout hv rfl huw
  have href : ∀ i w, Fetched hash s' (.ref i) w → Fetched hash s (.ref i) w := by
    intro i w hw
    rcases hfetched _ _ hw with ⟨heq, -⟩ | ⟨-, hw⟩
    · exact absurd heq.symm (hatom i)
    · exact hw
  refine ⟨s', ?_, ?_, ⟨hgrows, rfl, ?_⟩, p, hv, hself⟩
  · rw [FetchState.setTable, setElement_eq_some hlt]
    rfl
  · refine ⟨?_, .inl hok, hs.objSize, hs.objEnd, hs.ptrSize, hs.ptrEnd, ?_, ?_, ?_, ?_, hs.distinct,
      ?_, hs.tables⟩
    · simpa [s'] using hs.table
    · intro u w hw hu
      rcases hfetched u w hw with ⟨rfl, rfl⟩ | ⟨-, hw⟩
      · rfl
      · exact hs.atom u w hw hu
    · intro i w hw
      obtain ⟨j, shape, hj, hshape, hwidth, hstate⟩ := hs.object i w (href i w hw)
      refine ⟨j, shape, hj, hshape, hwidth, hstate.imp_right (Or.imp_right ?_)⟩
      exact fun hcomplete => hcomplete.mono (fun _ _ => hgrows.fetched) fun _ _ => rfl
    · intro i i' j j' shape shape' hne hi hi'
      exact hs.disjoint i i' j j' shape shape' hne (href _ _ hi) (href _ _ hi')
    · intro k hk
      obtain ⟨i, q, w, shape, hq, hw, hi, hfetched, hrest⟩ := hs.stack k hk
      exact ⟨i, q, w, shape, hq, hw, hi, hgrows.fetched hfetched, hrest⟩
    · intro i hi
      obtain ⟨w, hw⟩ := hs.busyFetched i hi
      exact ⟨w, hgrows.fetched hw⟩
  · intro i q hq
    refine List.getElem?_set_ne ?_
    rintro rfl
    exact hatom i (layout.injective _ _ _ hv hq)

/-- What is new after the last step of a fetch of an object with an address. -/
structure Created (l : Lisp) (shape : Shape) (p : ℕ) (s s' : FetchState) : Prop where
  table : s'.table = s.table.set p (some (.ref s.heap.length))
  heap : s'.heap = s.heap ++ l.fresh s.heap.length shape
  caseOk : s'.caseOk = s.caseOk
  objSize : s'.updateObjSize ≤ s'.updateObj.length
  objEnd : s'.updateEnd ≤ s'.updateObjSize
  ptrSize : s'.updatePtrSize ≤ s'.updatePtr.length
  ptrEnd : s'.updateEnd ≤ s'.updatePtrSize
  updateEnd : s.updateEnd ≤ s'.updateEnd ∧ s'.updateEnd ≤ s.updateEnd + 1
  old : ∀ k < s.updateEnd, s'.updatePtr[k]? = s.updatePtr[k]? ∧ s'.updateObj[k]? = s.updateObj[k]?
  pushed : s.updateEnd < s'.updateEnd → s'.updatePtr[s.updateEnd]? = some p ∧
    s'.updateObj[s.updateEnd]? = some (.ref s.heap.length)
  text : shape.IsText ↔ s'.updateEnd = s.updateEnd

theorem fresh_text {shape : Shape} {fetched : Value → Value → Prop} {j : ℕ} (htext : shape.IsText)
    (hholds : Holds h j (l.fresh j shape)) : Complete l fetched h shape j := by
  cases shape with
  | text node => exact hholds 0 node rfl
  | _ => exact htext.elim

theorem fresh_tables {shape : Shape} {j k : ℕ} {test : Test} {entries : List (Value × Value)}
    (htext : ∀ node, shape = .text node → ∀ test entries, node ≠ .hashTable test entries)
    (hk : (l.fresh j shape)[k]? = some (.hashTable test entries)) : test = .eq := by
  have hmem := List.mem_of_getElem? hk
  cases shape with
  | text node =>
    rw [Lisp.fresh, List.mem_singleton] at hmem
    exact absurd hmem.symm (htext node rfl test entries)
  | list elements => simp [Lisp.fresh] at hmem
  | pair car cdr => simp [Lisp.fresh] at hmem
  | table test' entries' =>
    rw [Lisp.fresh, List.mem_singleton] at hmem
    cases hmem
    rfl
  | object type slots => simp [Lisp.fresh] at hmem

theorem Holds.append (heap : Heap) (nodes : List Node) :
    Holds (heap ++ nodes) heap.length nodes := by
  intro k node hk
  rw [List.getElem?_append_right (by omega), Nat.add_sub_cancel_left]
  exact hk

theorem Created.grows {shape : Shape} (hcreated : Created l shape p s s')
    (hnew : s.table[p]? = some none) : Grows s s' := by
  refine ⟨?_, ?_, ?_, ?_⟩
  · rw [hcreated.heap, List.length_append]
    omega
  · intro j hj
    rw [hcreated.heap, List.getElem?_append_left hj]
  · intro q w hq
    rw [hcreated.table, List.getElem?_set_ne, hq]
    rintro rfl
    rw [hnew] at hq
    cases hq
  · have := count_set_lt (x := .ref s.heap.length) hnew
    rw [hcreated.table]
    have := hcreated.updateEnd
    omega

/-- An object that was not there yet is made. -/
theorem Created.valid (layout : Layout l h words hash) (hs : s.Valid l h words hash busy)
    (hok : s.caseOk = .ok) {shape : Shape} (hcreated : Created l shape p s s') {i : ℕ}
    (hi : hash (.ref i) = some p) (hshape : l.shape h i = some shape)
    (hnew : s.table[p]? = some none) :
    s'.Valid l h words hash busy ∧ Fetched hash s' (.ref i) (.ref s.heap.length) := by
  have hlt : p < s.table.length := (layout.lt hi).trans_le hs.table
  have hgrows : Grows s s' := hcreated.grows hnew
  have hself : Fetched hash s' (.ref i) (.ref s.heap.length) := by
    refine ⟨p, hi, ?_⟩
    rw [hcreated.table]
    exact List.getElem?_set_self hlt
  have hfetched : ∀ u w, Fetched hash s' u w →
      u = .ref i ∧ w = .ref s.heap.length ∨ u ≠ .ref i ∧ Fetched hash s u w :=
    fun u w huw => fetched_set layout hi hcreated.table huw
  have hunfetched : ∀ w, ¬ Fetched hash s (.ref i) w := by
    rintro w ⟨q, hq, hw⟩
    obtain rfl := Option.some.inj (hi.symm.trans hq)
    rw [hnew] at hw
    cases hw
  have hlength : s'.heap.length = s.heap.length + shape.width := by
    rw [hcreated.heap, List.length_append, length_fresh]
  -- the cells of an object that was there are where they were
  have hcells : ∀ j n, j + n ≤ s.heap.length → ∀ k < n, s'.heap[j + k]? = s.heap[j + k]? :=
    fun j n hj k hk => hgrows.heap (j + k) (by omega)
  have hholds : Holds s'.heap s.heap.length (l.fresh s.heap.length shape) := by
    rw [hcreated.heap]
    exact .append _ _
  have hpending : ∀ i', Pending hash s i' → Pending hash s' i' := by
    rintro i' ⟨k, hk, hptr⟩
    exact ⟨k, hk.trans_le hcreated.updateEnd.1, (hcreated.old k hk).1.trans hptr⟩
  have hold : ∀ i' j, i' ≠ i → Fetched hash s' (.ref i') (.ref j) → ∃ shape',
      l.shape h i' = some shape' ∧ Fetched hash s (.ref i') (.ref j) ∧
        j + shape'.width ≤ s.heap.length := by
    intro i' j hne hj
    rcases hfetched _ _ hj with ⟨heq, -⟩ | ⟨-, hj⟩
    · exact absurd (Value.ref.inj heq) hne
    · obtain ⟨j', shape', heq, hshape', hwidth, -⟩ := hs.object i' _ hj
      cases heq
      exact ⟨shape', hshape', hj, hwidth⟩
  refine ⟨⟨?_, .inl (hcreated.caseOk.trans hok), hcreated.objSize, hcreated.objEnd,
    hcreated.ptrSize, hcreated.ptrEnd, ?_, ?_, ?_, ?_, ?_, ?_, ?_⟩, hself⟩
  · rw [hcreated.table, List.length_set]
    exact hs.table
  · intro v w hw hv
    rcases hfetched v w hw with ⟨rfl, -⟩ | ⟨-, hw⟩
    · exact absurd rfl (hv i)
    · exact hs.atom v w hw hv
  · intro i' w hw
    rcases hfetched _ w hw with ⟨heq, rfl⟩ | ⟨-, hw⟩
    · cases heq
      refine ⟨_, shape, rfl, hshape, hlength.ge, .inr ?_⟩
      by_cases htext : shape.IsText
      · exact .inr (fresh_text htext hholds)
      · have hpushed : s.updateEnd < s'.updateEnd := by
          have := hcreated.updateEnd.1
          have := mt hcreated.text.2 htext
          omega
        exact .inl ⟨_, hpushed, (hcreated.pushed hpushed).1.trans hi.symm⟩
    · obtain ⟨j, shape', hj, hshape', hwidth, hstate⟩ := hs.object i' w hw
      refine ⟨j, shape', hj, hshape', hwidth.trans hgrows.length, ?_⟩
      rcases hstate with hbusy | hpend | hcomplete
      · exact .inl hbusy
      · exact .inr (.inl (hpending i' hpend))
      · exact .inr (.inr (hcomplete.mono (fun _ _ => hgrows.fetched) (hcells j _ hwidth)))
  · intro i₁ i₂ j₁ j₂ shape₁ shape₂ hne h₁ h₂ hshape₁ hshape₂
    by_cases hi₁ : i₁ = i
    · subst hi₁
      obtain ⟨shape', hshape', -, hwidth⟩ := hold i₂ j₂ hne.symm h₂
      obtain rfl := Option.some.inj (hshape₂.symm.trans hshape')
      rcases hfetched _ _ h₁ with ⟨-, heq⟩ | ⟨hne', -⟩
      · cases heq
        exact .inr hwidth
      · exact absurd rfl hne'
    · obtain ⟨shape', hshape', hj₁, hwidth⟩ := hold i₁ j₁ hi₁ h₁
      obtain rfl := Option.some.inj (hshape₁.symm.trans hshape')
      by_cases hi₂ : i₂ = i
      · subst hi₂
        rcases hfetched _ _ h₂ with ⟨-, heq⟩ | ⟨hne', -⟩
        · cases heq
          exact .inl hwidth
        · exact absurd rfl hne'
      · obtain ⟨-, -, hj₂, -⟩ := hold i₂ j₂ hi₂ h₂
        exact hs.disjoint i₁ i₂ j₁ j₂ _ _ hne hj₁ hj₂ hshape₁ hshape₂
  · intro k hk
    by_cases hkold : k < s.updateEnd
    · obtain ⟨i', q, j, shape', hq, hj, hi', hfetched', hshape', htext, hbusy, hfresh⟩ :=
        hs.stack k hkold
      obtain ⟨hptr, hobj⟩ := hcreated.old k hkold
      refine ⟨i', q, j, shape', hptr.trans hq, hobj.trans hj, hi', hgrows.fetched hfetched', hshape',
        htext, hbusy, hfresh.mono ?_⟩
      obtain ⟨j', shape'', heq, hshape'', hwidth, -⟩ := hs.object i' _ hfetched'
      cases heq
      obtain rfl := Option.some.inj (hshape'.symm.trans hshape'')
      rw [length_fresh]
      exact hcells j _ hwidth
    · obtain rfl : k = s.updateEnd := by
        have := hcreated.updateEnd
        omega
      obtain ⟨hptr, hobj⟩ := hcreated.pushed hk
      refine ⟨i, p, _, shape, hptr, hobj, hi, hself, hshape, ?_, ?_, hholds⟩
      · intro htext
        rw [hcreated.text.1 htext] at hk
        exact hkold hk
      · intro hbusy
        obtain ⟨w, hw⟩ := hs.busyFetched i hbusy
        exact hunfetched w hw
  · -- the address that is pushed is not on the stack yet
    have hfreshPtr : ∀ k < s.updateEnd, s'.updatePtr[k]? ≠ some p := by
      intro k hk hptr
      obtain ⟨i', q, w, shape', hq, -, hi', hfetched', -⟩ := hs.stack k hk
      rw [(hcreated.old k hk).1, hq] at hptr
      cases hptr
      cases layout.injective _ _ _ hi hi'
      exact hunfetched _ hfetched'
    intro k k' hk hk' heq
    by_cases hkold : k < s.updateEnd
    · by_cases hkold' : k' < s.updateEnd
      · rw [(hcreated.old k hkold).1, (hcreated.old k' hkold').1] at heq
        exact hs.distinct k k' hkold hkold' heq
      · obtain rfl : k' = s.updateEnd := by
          have := hcreated.updateEnd
          omega
        exact absurd (heq.trans (hcreated.pushed hk').1) (hfreshPtr k hkold)
    · obtain rfl : k = s.updateEnd := by
        have := hcreated.updateEnd
        omega
      by_cases hkold' : k' < s.updateEnd
      · exact absurd (heq.symm.trans (hcreated.pushed hk).1) (hfreshPtr k' hkold')
      · have := hcreated.updateEnd
        omega
  · intro i' hi'
    obtain ⟨w, hw⟩ := hs.busyFetched i' hi'
    exact ⟨w, hgrows.fetched hw⟩
  · intro j test entries hj
    rw [hcreated.heap] at hj
    by_cases hjold : j < s.heap.length
    · rw [List.getElem?_append_left hjold] at hj
      exact hs.tables j test entries hj
    · rw [List.getElem?_append_right (not_lt.1 hjold)] at hj
      refine fresh_tables ?_ hj
      rintro node rfl test entries rfl
      obtain ⟨-, f, str, hwritten, -⟩ := Lisp.star_text hshape
      cases hwritten

end Steps

end PVS.Store
