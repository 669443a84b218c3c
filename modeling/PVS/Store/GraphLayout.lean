import PVS.Store.StoreLayout
import PVS.Store.ObjectGraph

/-! Where the words of a graph are. -/

namespace PVS.Store

/-! ### Shapes and methods -/

/-- What is written for a node without children. -/
inductive Written : Node → Fetcher → List Char → Prop
  | string (chars : List Char) : Written (.string chars) .string chars
  | bignum (z : Bignum) : Written (.bignum z) .integer (formatInteger z)
  | ratio (q : Ratio) : Written (.ratio q) .rational (formatRational q)

namespace Lisp

variable {l : Lisp} {h : Heap} {i : ℕ}

theorem star_text {node : Node} (hshape : l.shape h i = some (.text node)) :
    h[i]? = some node ∧ ∃ f str, Written node f str ∧
      l.storeObjectStar h (.ref i) = some (l.storeText f str) := by
  rw [shape] at hshape
  split at hshape
  case h_1 => split at hshape <;> cases hshape
  case h_4 node' hcons htable hinstance hi =>
    cases hshape
    refine ⟨hi, ?_⟩
    simp only [storeObjectStar, hi]
    cases node with
    | string chars => exact ⟨_, _, .string chars, rfl⟩
    | bignum z => exact ⟨_, _, .bignum z, rfl⟩
    | ratio q => exact ⟨_, _, .ratio q, rfl⟩
    | cons car cdr => exact absurd rfl (hcons car cdr)
    | hashTable test entries => exact absurd rfl (htable test entries)
    | «instance» type slots => exact absurd rfl (hinstance type slots)
  all_goals cases hshape

theorem star_list {elements : List Value} (hshape : l.shape h i = some (.list elements)) :
    l.storeObjectStar h (.ref i) = some (l.storeList elements) := by
  have htrue := shape_list hshape
  rw [shape] at hshape
  split at hshape
  case h_1 hi => simp only [storeObjectStar, hi, htrue]
  all_goals cases hshape

theorem star_pair {car cdr : Value} (hshape : l.shape h i = some (.pair car cdr)) :
    h[i]? = some (.cons car cdr) ∧
      l.storeObjectStar h (.ref i) = some (l.storeCons car cdr) := by
  rw [shape] at hshape
  split at hshape
  case h_1 hi =>
    split at hshape
    case h_2 hfalse =>
      cases hshape
      exact ⟨hi, by simp only [storeObjectStar, hi, hfalse]⟩
    all_goals cases hshape
  all_goals cases hshape

theorem star_table {test : Test} {entries : List (Value × Value)}
    (hshape : l.shape h i = some (.table test entries)) :
    h[i]? = some (.hashTable test entries) ∧
      l.storeObjectStar h (.ref i) = some (l.storeHashTable entries) := by
  rw [shape] at hshape
  split at hshape
  case h_1 => split at hshape <;> cases hshape
  case h_2 hi =>
    cases hshape
    exact ⟨hi, by simp only [storeObjectStar, hi]⟩
  all_goals cases hshape

theorem star_object {type : Symbol} {slots : List Value}
    (hshape : l.shape h i = some (.object type slots)) :
    h[i]? = some (.instance type slots) ∧
      l.storeObjectStar h (.ref i) = some (storeInstance type slots) := by
  rw [shape] at hshape
  split at hshape
  case h_1 => split at hshape <;> cases hshape
  case h_3 hi =>
    cases hshape
    exact ⟨hi, by simp only [storeObjectStar, hi]⟩
  all_goals cases hshape

end Lisp

/-! ### The objects to be stored -/

namespace Graph

variable {l : Lisp} (g : Graph l)

/-- The class of an instance. -/
def typeOf : Node → Option Value
  | .instance type _ => some (.symbol type)
  | _ => none

def packageOf : Value → Option Value
  | .symbol s => some (.package s.package)
  | _ => none

def base : List Value :=
  (List.range g.heap.length).map .ref ++ g.heap.flatMap Node.values ++ g.heap.filterMap typeOf ++
    Fetcher.all.map l.type

/-- What may come up when the graph is stored. -/
def objects : Finset Value := (g.base ++ g.base.filterMap packageOf).toFinset

variable {g}

theorem mem_objects {v : Value} (hv : v ∈ g.base) : v ∈ g.objects :=
  List.mem_toFinset.2 (List.mem_append_left _ hv)

theorem ref_mem {i : ℕ} (hi : i < g.heap.length) : .ref i ∈ g.objects := by
  apply mem_objects
  simp only [base, List.mem_append]
  exact .inl (.inl (.inl (List.mem_map_of_mem (List.mem_range.2 hi))))

theorem value_mem {node : Node} {v : Value} (hnode : node ∈ g.heap) (hv : v ∈ node.values) :
    v ∈ g.objects := by
  apply mem_objects
  simp only [base, List.mem_append]
  exact .inl (.inl (.inr (List.mem_flatMap.2 ⟨node, hnode, hv⟩)))

theorem class_mem {type : Symbol} {slots : List Value} (hnode : .instance type slots ∈ g.heap) :
    .symbol type ∈ g.objects := by
  apply mem_objects
  simp only [base, List.mem_append]
  exact .inl (.inr (List.mem_filterMap.2 ⟨_, hnode, rfl⟩))

theorem type_mem (f : Fetcher) : l.type f ∈ g.objects := by
  apply mem_objects
  simp only [base, List.mem_append]
  refine .inr (List.mem_map_of_mem ?_)
  cases f <;> simp [Fetcher.all]

theorem package_mem {s : Symbol} (hs : .symbol s ∈ g.objects) : .package s.package ∈ g.objects := by
  rcases List.mem_append.1 (List.mem_toFinset.1 hs) with hs | hs
  · exact List.mem_toFinset.2 (List.mem_append_right _ (List.mem_filterMap.2 ⟨_, hs, rfl⟩))
  · obtain ⟨v, -, hv⟩ := List.mem_filterMap.1 hs
    cases v <;> cases hv

/-- The objects in a reservation that begins with a type. -/
theorem typed_pushes {f : Fetcher} {pushes : List Push}
    (hpushes : ∀ w, .object w ∈ pushes → w ∈ g.objects) :
    ∀ w, .object w ∈ .object (l.type f) :: pushes → w ∈ g.objects := by
  intro w hw
  rcases List.mem_cons.1 hw with heq | hw
  · cases heq
    exact type_mem f
  · exact hpushes w hw

theorem pushString_objects {str : List Char} :
    ∀ w, .object w ∈ pushString str → w ∈ g.objects := by
  simp [pushString]

theorem lt_of_mem {i : ℕ} (hi : .ref i ∈ g.objects) : i < g.heap.length := by
  rcases List.mem_append.1 (List.mem_toFinset.1 hi) with hi | hi
  · simp only [base, List.mem_append] at hi
    obtain ((hi | hi) | hi) | hi := hi
    · obtain ⟨j, hj, heq⟩ := List.mem_map.1 hi
      cases heq
      exact List.mem_range.1 hj
    · obtain ⟨node, hnode, hi⟩ := List.mem_flatMap.1 hi
      exact g.refs node hnode i hi
    · obtain ⟨node, -, heq⟩ := List.mem_filterMap.1 hi
      cases node <;> cases heq
    · obtain ⟨f, -, heq⟩ := List.mem_map.1 hi
      cases heq
  · obtain ⟨v, -, heq⟩ := List.mem_filterMap.1 hi
    cases v <;> cases heq

theorem exists_shape {i : ℕ} (hi : i < g.heap.length) : ∃ shape, l.shape g.heap i = some shape := by
  have hchain := g.chains i hi
  rw [Lisp.shape, List.getElem?_eq_getElem hi]
  cases g.heap[i] with
  | cons car cdr =>
    simp only
    split
    case h_3 hnone => exact absurd hnone hchain
    all_goals exact ⟨_, rfl⟩
  | _ => exact ⟨_, rfl⟩

theorem child_mem {i : ℕ} {shape : Shape} (hshape : l.shape g.heap i = some shape) {w : Value}
    (hw : w ∈ shape.children) : w ∈ g.objects := by
  obtain ⟨node, hnode, hw⟩ := Lisp.shape_children hshape w hw
  exact value_mem hnode hw

theorem closed : Closed l g.heap g.objects := by
  intro v hv
  cases v with
  | symbol s =>
    refine ⟨_, rfl, ?_⟩
    rw [Lisp.storeSymbol]
    split_ifs
    · simp [pushString]
    · refine typed_pushes fun w hw => ?_
      rcases List.mem_cons.1 hw with heq | hw
      · cases heq
        exact package_mem hv
      · exact pushString_objects w hw
  | package p => exact ⟨_, rfl, typed_pushes pushString_objects⟩
  | fixnum z => exact ⟨_, rfl, typed_pushes pushString_objects⟩
  | ref i =>
    obtain ⟨shape, hshape⟩ := exists_shape (lt_of_mem hv)
    have hchildren : ∀ w ∈ shape.children, w ∈ g.objects := fun w hw => child_mem hshape hw
    cases shape with
    | text node =>
      obtain ⟨-, f, str, -, hstar⟩ := Lisp.star_text hshape
      exact ⟨_, hstar, typed_pushes pushString_objects⟩
    | list elements =>
      refine ⟨_, Lisp.star_list hshape, typed_pushes fun w hw => ?_⟩
      simp only [List.mem_cons, List.mem_map, reduceCtorEq, false_or] at hw
      obtain ⟨x, hx, heq⟩ := hw
      cases heq
      exact hchildren _ hx
    | pair car cdr =>
      refine ⟨_, (Lisp.star_pair hshape).2, typed_pushes fun w hw => ?_⟩
      simp only [List.mem_cons, List.not_mem_nil, or_false, Push.object.injEq] at hw
      exact hchildren w (by simpa [Shape.children] using hw)
    | table test entries =>
      refine ⟨_, (Lisp.star_table hshape).2, typed_pushes fun w hw => ?_⟩
      simp only [List.mem_cons, List.mem_flatMap, List.mem_reverse, reduceCtorEq, false_or,
        List.not_mem_nil, or_false, Push.object.injEq] at hw
      apply hchildren w
      simpa [Shape.children, List.mem_flatMap] using hw
    | object type slots =>
      obtain ⟨hi, hstar⟩ := Lisp.star_object hshape
      refine ⟨_, hstar, fun w hw => ?_⟩
      rcases List.mem_cons.1 hw with heq | hw
      · cases heq
        exact class_mem (List.mem_of_getElem? hi)
      · obtain ⟨x, hx, heq⟩ := List.mem_map.1 hw
        cases heq
        exact hchildren _ hx

end Graph

/-! ### Words -/

section Words

variable {hash : Value → Option ℕ} {words : List ℕ} {p k : ℕ} {pushes : List Push}

theorem Laid.word {w : ℕ} (hlaid : Laid hash words p pushes) (hk : pushes[k]? = some (.word w)) :
    words[p + k]? = some w := by
  induction pushes generalizing p k with
  | nil => cases hk
  | cons push pushes ih =>
    cases k with
    | zero =>
      cases hk
      exact hlaid.1
    | succ k =>
      rw [show p + (k + 1) = p + 1 + k by omega]
      cases push <;> exact ih hlaid.2 hk

theorem Laid.object {v : Value} (hlaid : Laid hash words p pushes)
    (hk : pushes[k]? = some (.object v)) : ∃ q, hash v = some q ∧ words[p + k]? = some q := by
  induction pushes generalizing p k with
  | nil => cases hk
  | cons push pushes ih =>
    cases k with
    | zero =>
      cases hk
      exact hlaid.1
    | succ k =>
      rw [show p + (k + 1) = p + 1 + k by omega]
      cases push <;> exact ih hlaid.2 hk

theorem mapM_range {α : Type} {f : ℕ → Option α} (xs : List α)
    (hf : ∀ i x, xs[i]? = some x → f i = some x) : (List.range xs.length).mapM f = some xs := by
  induction xs using List.reverseRecOn with
  | nil => rfl
  | append_singleton xs x ih =>
    have hxs : (List.range xs.length).mapM f = some xs :=
      ih fun i y hy => hf i y (by rw [List.getElem?_append_left (List.getElem?_eq_some_iff.1 hy).1, hy])
    have hx : f xs.length = some x := hf _ x (by simp)
    rw [List.length_append, List.length_singleton, List.range_succ, List.mapM_append, hxs]
    simp [hx]

end Words

end PVS.Store
