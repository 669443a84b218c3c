import PVS.Store.Object

/-! Graphs of objects. -/

namespace PVS.Store

/-! ### Shapes -/

/-- An object as the methods see it: the elements of a list are in it, its conses are not. -/
inductive Shape
  | text (node : Node)
  | list (elements : List Value)
  | pair (car cdr : Value)
  | table (test : Test) (entries : List (Value × Value))
  | object (type : Symbol) (slots : List Value)

namespace Shape

def children : Shape → List Value
  | text _ => []
  | list elements => elements
  | pair car cdr => [car, cdr]
  | table _ entries => entries.flatMap fun ent => [ent.1, ent.2]
  | object _ slots => slots

def IsText : Shape → Prop
  | text _ => True
  | _ => False

end Shape

def Node.values : Node → List Value
  | .cons car cdr => [car, cdr]
  | .hashTable _ entries => entries.flatMap fun ent => [ent.1, ent.2]
  | .instance _ slots => slots
  | _ => []

namespace Lisp

variable (l : Lisp) (h : Heap)

/-- None if the address is not in the heap or its chain of cdrs does not end. -/
def shape (i : ℕ) : Option Shape :=
  match h[i]? with
  | some (.cons car cdr) =>
    match l.trueList h (h.length + 1) (.ref i) with
    | some (some elements) => some (.list elements)
    | some none => some (.pair car cdr)
    | none => none
  | some (.hashTable test entries) => some (.table test entries)
  | some (.instance type slots) => some (.object type slots)
  | some node => some (.text node)
  | none => none

def children : Value → List Value
  | .ref i => ((l.shape h i).map Shape.children).getD []
  | _ => []

/-- What is reached from an object, other than the tails of lists. -/
inductive Reachable (root : Value) : Value → Prop
  | root : Reachable root root
  | child {v w : Value} : Reachable root v → w ∈ l.children h v → Reachable root w

variable {l h} {i : ℕ}

theorem mem_children {shape : Shape} {w : Value} (hshape : l.shape h i = some shape)
    (hw : w ∈ shape.children) : w ∈ l.children h (.ref i) := by
  rw [children, hshape]
  exact hw

theorem trueList_succ_ref {fuel : ℕ} : l.trueList h (fuel + 1) (.ref i) =
    match h[i]? with
    | some (.cons car cdr) => (l.trueList h fuel cdr).map (Option.map (car :: ·))
    | _ => some none := by
  rw [trueList]
  exact if_neg (by rintro ⟨⟩)

theorem trueList_mem {fuel : ℕ} {v : Value} {elements : List Value}
    (htrue : l.trueList h fuel v = some (some elements)) :
    ∀ w ∈ elements, ∃ node ∈ h, w ∈ node.values := by
  induction fuel generalizing v elements with
  | zero => cases htrue
  | succ fuel ih =>
    by_cases hnil : v = .symbol l.nil
    · have : l.trueList h (fuel + 1) v = some (some []) := by
        cases hnil
        simp [trueList]
      obtain rfl := Option.some.inj (Option.some.inj (this.symm.trans htrue))
      intro w hw
      cases hw
    · cases v with
      | ref i =>
        rw [trueList_succ_ref] at htrue
        split at htrue
        case h_1 car cdr hi =>
          obtain ⟨rest, hrest, hcons⟩ := Option.map_eq_some_iff.1 htrue
          obtain ⟨tail, rfl, rfl⟩ := Option.map_eq_some_iff.1 hcons
          intro w hw
          rcases List.mem_cons.1 hw with rfl | hw
          · exact ⟨_, List.mem_of_getElem? hi, List.mem_cons_self⟩
          · exact ih hrest w hw
        case h_2 => cases htrue
      | _ =>
        rw [trueList, if_neg hnil] at htrue
        · cases htrue
        · rintro i ⟨⟩

/-- A list that is a cons has an element. -/
theorem trueList_ref {fuel : ℕ} {elements : List Value}
    (htrue : l.trueList h fuel (.ref i) = some (some elements)) : elements ≠ [] := by
  cases fuel with
  | zero => cases htrue
  | succ fuel =>
    rw [trueList_succ_ref] at htrue
    split at htrue
    · obtain ⟨rest, -, hcons⟩ := Option.map_eq_some_iff.1 htrue
      obtain ⟨tail, -, rfl⟩ := Option.map_eq_some_iff.1 hcons
      exact List.cons_ne_nil _ _
    · cases htrue

theorem shape_list {elements : List Value} (hshape : l.shape h i = some (.list elements)) :
    l.trueList h (h.length + 1) (.ref i) = some (some elements) := by
  rw [shape] at hshape
  split at hshape
  case h_1 =>
    split at hshape
    case h_1 htrue =>
      cases hshape
      exact htrue
    all_goals cases hshape
  all_goals cases hshape

/-- The objects in an object are values of the heap. -/
theorem shape_children {shape : Shape} (hshape : l.shape h i = some shape) :
    ∀ w ∈ shape.children, ∃ node ∈ h, w ∈ node.values := by
  have hlist := @shape_list l h i
  rw [Lisp.shape] at hshape hlist
  split at hshape
  case h_1 car cdr hi =>
    split at hshape
    case h_1 elements htrue =>
      cases hshape
      exact trueList_mem htrue
    case h_2 =>
      cases hshape
      exact fun w hw => ⟨_, List.mem_of_getElem? hi, hw⟩
    case h_3 => cases hshape
  case h_2 hi =>
    cases hshape
    exact fun w hw => ⟨_, List.mem_of_getElem? hi, hw⟩
  case h_3 hi =>
    cases hshape
    exact fun w hw => ⟨_, List.mem_of_getElem? hi, hw⟩
  case h_4 =>
    cases hshape
    intro w hw
    cases hw
  case h_5 => cases hshape

end Lisp

/-! ### Graphs -/

/-- A finite graph of objects whose root is a list, a hash table or an instance. -/
structure Graph (l : Lisp) where
  heap : Heap
  refs : ∀ node ∈ heap, ∀ i, .ref i ∈ node.values → i < heap.length
  chains : ∀ i < heap.length, l.trueList heap (heap.length + 1) (.ref i) ≠ none
  keys : ∀ test entries, .hashTable test entries ∈ heap → (entries.map Prod.fst).Nodup
  slots : ∀ type slots, .instance type slots ∈ heap → l.slots type = some slots.length
  root : ℕ
  rootShape : ∃ shape, l.shape heap root = some shape ∧ ¬ shape.IsText

namespace Graph

variable {l : Lisp} (g : Graph l)

def Reachable (v : Value) : Prop := l.Reachable g.heap (.ref g.root) v

/-- Every hash table of the graph compares its keys by `eq`. -/
def EqTables : Prop :=
  ∀ i test entries, g.Reachable (.ref i) → l.shape g.heap i = some (.table test entries) →
    test = .eq

end Graph

/-! ### Isomorphisms -/

/-- `gethash`, of a key that is `eq` to the one in the table. -/
def gethash (key : Value) (entries : List (Value × Value)) : Option Value :=
  (entries.find? fun ent => ent.1 = key).map Prod.snd

/-- What is at the address is an object of this shape, with the images of what was in it. -/
def SameObject (l : Lisp) (image : Value → Value) (h : Heap) : Shape → ℕ → Prop
  | .text node, j => h[j]? = some node
  | .list elements, j =>
    l.trueList h (elements.length + 1) (.ref j) = some (some (elements.map image))
  | .pair car cdr, j => h[j]? = some (.cons (image car) (image cdr))
  | .table test entries, j =>
    ∃ entries', h[j]? = some (.hashTable test entries') ∧ entries'.length = entries.length ∧
      ∀ ent ∈ entries, gethash (image ent.1) entries' = some (image ent.2)
  | .object type slots, j => h[j]? = some (.instance type (slots.map image))

structure Isomorphism {l : Lisp} (g : Graph l) (root : Value) (h : Heap) (image : Value → Value) :
    Prop where
  root : image (.ref g.root) = root
  injective : ∀ v w, g.Reachable v → g.Reachable w → image v = image w → v = w
  atom : ∀ v, g.Reachable v → (∀ i, v ≠ .ref i) → image v = v
  object : ∀ i, g.Reachable (.ref i) → ∃ j shape, image (.ref i) = .ref j ∧
    l.shape g.heap i = some shape ∧ SameObject l image h shape j

def Isomorphic {l : Lisp} (g : Graph l) (root : Value) (h : Heap) : Prop :=
  ∃ image, Isomorphism g root h image

end PVS.Store
