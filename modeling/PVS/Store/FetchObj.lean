import Mathlib
import PVS.Store.FetchLayout

/-! What `fetch-obj` returns. -/

namespace PVS.Store

section FetchObj

variable {l : Lisp} {h : Heap} {words : List ℕ} {hash : Value → Option ℕ} {busy : Option ℕ}
  {s s' : FetchState} {p fuel : ℕ}

theorem fetchTempString_laid {str : List Char} {ptr offset : ℕ}
    (hlaid : Laid hash words (ptr + offset) (pushString str)) :
    fetchTempString words ptr offset = some str := by
  have hlen : words[ptr + offset]? = some str.length := hlaid.1
  simp only [fetchTempString, hlen]
  refine mapM_range str fun i ch hi => ?_
  have hpush : (str.map fun ch => Push.word ch.toNat)[i]? = some (.word ch.toNat) := by
    rw [List.getElem?_map, hi]
    rfl
  rw [hlaid.2.word hpush, Option.map_some, Char.ofNat_toNat]

namespace Lisp

theorem fetcher_type (f : Fetcher) : l.fetcher (l.intern f.name) = some f := by
  cases f <;> simp [fetcher, Fetcher.all, List.find?, intern, Fetcher.name]

theorem fetcher_class {type : Symbol} {n : ℕ} (hslots : l.slots type = some n) :
    l.fetcher type = none := by
  rw [fetcher, List.find?_eq_none]
  intro f _ heq
  exact l.noFetcher type n hslots f (of_decide_eq_true heq).symm

end Lisp

/-- Whether the name of the symbol shows the case of the file. -/
def Capital (name : List Char) : Prop := ∃ ch ∈ name, ch.isUpper = true

/-- The first symbol that is fetched has an upper case letter. -/
def Ready (s : FetchState) (v : Value) : Prop :=
  s.caseOk = .unknown → ∀ a, v = .symbol a → Capital a.name

theorem capital_fetcher (f : Fetcher) : Capital f.name := by
  cases f <;> exact ⟨_, List.mem_cons_self, rfl⟩

theorem not_all_lower {name : List Char} (hname : Capital name) :
    (name.all fun ch => !ch.isAlpha || ch.isLower) = false := by
  obtain ⟨ch, hch, hupper⟩ := hname
  rw [List.all_eq_false]
  refine ⟨ch, hch, ?_⟩
  have hlower : ch.isLower = false := by
    simp only [Char.isUpper, Char.isLower, decide_eq_true_eq, Bool.and_eq_false_iff,
      decide_eq_false_iff_not] at hupper ⊢
    have := UInt32.le_iff_toNat_le.1 hupper.1
    have := UInt32.le_iff_toNat_le.1 hupper.2
    left
    intro hle
    have := UInt32.le_iff_toNat_le.1 hle
    simp at *
    omega
  simp [Char.isAlpha, hupper, hlower]

theorem fetchObj_cached {w : Value} (htable : s.table[p]? = some (some w)) :
    fetchObj l words (fuel + 1) p s = some (w, s) := by
  simp [fetchObj, htable]

theorem FetchState.Valid.entry (layout : Layout l h words hash)
    (hs : s.Valid l h words hash busy) {v : Value} (hv : hash v = some p) :
    s.table[p]? = some none ∨ ∃ w, s.table[p]? = some (some w) := by
  have hlt : p < s.table.length := (layout.lt hv).trans_le hs.table
  rw [List.getElem?_eq_getElem hlt]
  cases s.table[p] with
  | none => exact .inl rfl
  | some w => exact .inr ⟨w, rfl⟩

/-- What `fetch-obj` does at the address of an atom. -/
def FetchesAt (l : Lisp) (h : Heap) (words : List ℕ) (hash : Value → Option ℕ) (fuel : ℕ)
    (v : Value) : Prop :=
  ∀ busy s p, FetchState.Valid l h words hash busy s → Ready s v → hash v = some p →
    ∃ s', fetchObj l words fuel p s = some (v, s') ∧ s'.Valid l h words hash busy ∧
      FetchesAtom hash s s' ∧ Fetched hash s' v v

/-- It is enough to look at what is not fetched yet. -/
theorem FetchesAt.intro (layout : Layout l h words hash) {v : Value} (hatom : ∀ i, v ≠ .ref i)
    (hnew : ∀ busy s p, FetchState.Valid l h words hash busy s → Ready s v → hash v = some p →
      s.table[p]? = some none → ∃ s₁, fetchObj l words (fuel + 1) p s = s₁.register l false v p ∧
        s₁.Valid l h words hash busy ∧ FetchesAtom hash s s₁ ∧ s₁.caseOk = .ok) :
    FetchesAt l h words hash (fuel + 1) v := by
  intro busy s p hs hready hv
  rcases hs.entry layout hv with hnone | ⟨w, hw⟩
  · obtain ⟨s₁, hfetch, hs₁, hatom₁, hok⟩ := hnew busy s p hs hready hv hnone
    obtain ⟨s', hset, hs', hatom', hfetched⟩ := hs₁.setAtom layout hok hatom hv
    refine ⟨s', ?_, hs', hatom₁.trans hatom', hfetched⟩
    rw [hfetch]
    simp [FetchState.register, hset]
  · obtain rfl := hs.atom v w ⟨p, hv, hw⟩ hatom
    exact ⟨s, fetchObj_cached hw, hs, .refl s, p, hv, hw⟩

theorem fetchSymbol_laid {name : List Char}
    (hlaid : Laid hash words (p + 1) (pushString name)) (hcase : s.caseOk ≠ .upper)
    (hready : s.caseOk = .unknown → Capital name) :
    fetchSymbol l words p s = some (.symbol (l.intern name), { s with caseOk := .ok }) := by
  have hcaseOk : (if s.caseOk = .unknown then
      if name.all fun ch => !ch.isAlpha || ch.isLower then CaseOk.upper else .ok
      else s.caseOk) = .ok := by
    split_ifs with hunknown hall
    · rw [not_all_lower (hready hunknown)] at hall
      cases hall
    · rfl
    · cases hs : s.caseOk with
      | unknown => exact absurd hs hunknown
      | ok => rfl
      | upper => exact absurd hs hcase
  simp only [fetchSymbol, fetchTempString_laid hlaid, Option.bind_eq_bind, Option.bind_some, hcaseOk]
  rfl

theorem FetchState.Valid.not_upper (hs : s.Valid l h words hash busy) : s.caseOk ≠ .upper := by
  rcases hs.caseOk with hok | ⟨hunknown, -⟩
  · rw [hok]
    rintro ⟨⟩
  · rw [hunknown]
    rintro ⟨⟩

/-- A symbol that is found in the package PVS. -/
theorem fetchesAt_home (layout : Layout l h words hash) (fuel : ℕ) (name : List Char) :
    FetchesAt l h words hash (fuel + 1) (.symbol (l.intern name)) := by
  refine .intro layout (by rintro i ⟨⟩) fun busy s p hs hready hv hnone => ?_
  have hlaid : Laid hash words p (l.storeSymbol (l.intern name)).pushes := layout.pushes rfl hv
  rw [Lisp.storeSymbol, if_pos (show l.intern name = l.intern (l.intern name).name from rfl)] at hlaid
  have hword : words[p]? = some 0 := hlaid.1
  refine ⟨{ s with caseOk := .ok }, ?_, hs.setCaseOk, .setCaseOk .ok, rfl⟩
  have hsymbol := fetchSymbol_laid (l := l) hlaid.2 hs.not_upper fun h => hready h _ rfl
  simp [fetchObj, hnone, hword, hsymbol, Lisp.intern]

/-- An object that begins with its type. -/
theorem fetchObj_typed (layout : Layout l h words hash) {type : Symbol} {pushes : List Push}
    (htype : FetchesAt l h words hash fuel (.symbol type)) (hcapital : Capital type.name)
    (hs : s.Valid l h words hash busy) (hnone : s.table[p]? = some none)
    (hlaid : Laid hash words p (.object (.symbol type) :: pushes)) :
    ∃ s₁, s₁.Valid l h words hash busy ∧ FetchesAtom hash s s₁ ∧ s₁.caseOk = .ok ∧
      Fetched hash s₁ (.symbol type) (.symbol type) ∧
      fetchObj l words (fuel + 1) p s =
        (match l.fetcher type with
          | some f => callFetcher l words (fetchObj l words fuel) f p s₁
          | none => do
            let n ← l.slots type
            some (true, s₁.allocate (.instance type (List.replicate n (.symbol l.nil))))).bind
          fun result => result.2.2.register l result.1 result.2.1 p := by
  obtain ⟨⟨q, hq, hword⟩, -⟩ := hlaid
  have hready : Ready s (.symbol type) := by
    rintro - a ⟨⟩
    exact hcapital
  obtain ⟨s₁, hfetch, hs₁, hatom, hfetched⟩ := htype busy s q hs hready hq
  refine ⟨s₁, hs₁, hatom, hs₁.ok hfetched, hfetched, ?_⟩
  have hq0 : q ≠ 0 := by
    have := (layout.laid _ q hq).1
    omega
  simp only [fetchObj, hnone, hword, hfetch, if_neg hq0, Option.bind_eq_bind, Option.bind_some]
  cases l.fetcher type with
  | some f => rfl
  | none => cases l.slots type <;> rfl

/-- An atom that begins with the name of a fetcher. -/
theorem FetchesAt.typed (layout : Layout l h words hash) {v : Value} (hatom : ∀ i, v ≠ .ref i)
    {f : Fetcher} {pushes : List Push}
    (hpushes : ∀ p, hash v = some p → Laid hash words p (.object (l.type f) :: pushes))
    (hcall : ∀ busy s p, FetchState.Valid l h words hash busy s → s.caseOk = .ok →
      Laid hash words (p + 1) pushes → ∃ s₁,
        callFetcher l words (fetchObj l words (fuel + 1)) f p s = some (false, v, s₁) ∧
          s₁.Valid l h words hash busy ∧ FetchesAtom hash s s₁ ∧ s₁.caseOk = .ok) :
    FetchesAt l h words hash (fuel + 2) v := by
  refine .intro layout hatom fun busy s p hs _ hv hnone => ?_
  have hlaid := hpushes p hv
  obtain ⟨s₁, hs₁, hatom₁, hok, -, hfetch⟩ := fetchObj_typed layout
    (fetchesAt_home layout fuel f.name) (capital_fetcher f) hs hnone hlaid
  obtain ⟨s₂, hcall, hs₂, hatom₂, hok₂⟩ := hcall busy s₁ p hs₁ hok hlaid.2
  refine ⟨s₂, ?_, hs₂, hatom₁.trans hatom₂, hok₂⟩
  rw [hfetch, Lisp.fetcher_type]
  simp only [hcall]
  rfl

theorem fetchesAt_package (layout : Layout l h words hash) (fuel : ℕ) (name : Package) :
    FetchesAt l h words hash (fuel + 2) (.package name) := by
  have hpushes : ∀ p, hash (.package name) = some p →
      Laid hash words p (.object (l.type .package) :: pushString name) :=
    fun p hp => layout.pushes rfl hp
  refine .typed layout (by rintro i ⟨⟩) hpushes fun busy s p hs hok hlaid => ?_
  refine ⟨s, ?_, hs, .refl s, hok⟩
  simp [callFetcher, fetchTempString_laid hlaid]

theorem fetchesAt_fixnum (layout : Layout l h words hash) (fuel : ℕ) (z : Fixnum) :
    FetchesAt l h words hash (fuel + 2) (.fixnum z) := by
  have hpushes : ∀ p, hash (.fixnum z) = some p →
      Laid hash words p (.object (l.type .integer) :: pushString (formatInteger z)) :=
    fun p hp => layout.pushes rfl hp
  refine .typed layout (by rintro i ⟨⟩) hpushes fun busy s p hs hok hlaid => ?_
  refine ⟨s, ?_, hs, .refl s, hok⟩
  simp [callFetcher, fetchTempString_laid hlaid, parseInteger_formatInteger,
      FetchState.makeRational, z.2]

theorem fetchesAt_symbol (layout : Layout l h words hash) (fuel : ℕ) (a : Symbol) :
    FetchesAt l h words hash (fuel + 3) (.symbol a) := by
  by_cases hhome : a = l.intern a.name
  · rw [hhome]
    exact fetchesAt_home layout (fuel + 2) a.name
  · have hstar : ∀ p, hash (.symbol a) = some p →
        Laid hash words p (l.storeSymbol a).pushes := fun p hp => layout.pushes rfl hp
    rw [Lisp.storeSymbol, if_neg hhome] at hstar
    refine .typed layout (by rintro i ⟨⟩) hstar fun busy s p hs hok hlaid => ?_
    obtain ⟨⟨q, hq, hword⟩, hname⟩ := hlaid
    have hready : Ready s (.package a.package) := by
      rintro - a ⟨⟩
    obtain ⟨s₁, hfetch, hs₁, hatom, hfetched⟩ :=
      fetchesAt_package layout fuel a.package busy s q hs hready hq
    refine ⟨s₁, ?_, hs₁, hatom, hs₁.ok hfetched⟩
    have hstring : fetchTempString words p 2 = some a.name := fetchTempString_laid hname
    simp [callFetcher, hword, hfetch, hstring]

theorem fetchesAt_atom (layout : Layout l h words hash) (fuel : ℕ) {v : Value}
    (hatom : ∀ i, v ≠ .ref i) : FetchesAt l h words hash (fuel + 3) v := by
  cases v with
  | symbol a => exact fetchesAt_symbol layout fuel a
  | package name => exact fetchesAt_package layout (fuel + 1) name
  | fixnum z => exact fetchesAt_fixnum layout (fuel + 1) z
  | ref i => exact absurd rfl (hatom i)

/-! ### Objects with an address -/

theorem register_created (hs : s.Valid l h words hash busy) (hlt : p < s.table.length)
    {shape : Shape} {registered : Bool} (htext : shape.IsText ↔ registered = false) :
    ∃ s', FetchState.register l { s with heap := s.heap ++ l.fresh s.heap.length shape } registered
        (.ref s.heap.length) p = some (.ref s.heap.length, s') ∧ Created l shape p s s' := by
  cases registered with
  | false =>
    refine ⟨{ s with
      heap := s.heap ++ l.fresh s.heap.length shape
      table := s.table.set p (some (.ref s.heap.length)) }, ?_, ?_⟩
    · simp [FetchState.register, FetchState.setTable, setElement_eq_some hlt]
    · refine ⟨rfl, rfl, rfl, hs.objSize, hs.objEnd, hs.ptrSize, hs.ptrEnd, ⟨le_rfl, Nat.le_succ _⟩,
        fun _ _ => ⟨rfl, rfl⟩, fun hlt => absurd hlt (lt_irrefl _), ?_⟩
      exact ⟨fun _ => rfl, fun _ => htext.2 rfl⟩
  | true =>
    obtain ⟨s₁, hqueue, hqueued⟩ := queueUpdateFetched_spec
      (s := { s with heap := s.heap ++ l.fresh s.heap.length shape })
      hs.objSize hs.objEnd hs.ptrSize hs.ptrEnd (l := l) (.ref s.heap.length) p
    have hlt₁ : p < s₁.table.length := by rwa [hqueued.table]
    refine ⟨{ s₁ with table := s₁.table.set p (some (.ref s.heap.length)) }, ?_, ?_⟩
    · simp [FetchState.register, FetchState.setTable, hqueue, setElement_eq_some hlt₁]
    · refine ⟨?_, hqueued.heap, hqueued.caseOk, hqueued.objSize, hqueued.objEnd, hqueued.ptrSize,
        hqueued.ptrEnd, ⟨?_, hqueued.updateEnd.le⟩, fun k hk => ⟨hqueued.ptrs k hk, hqueued.objs k hk⟩,
        fun _ => ⟨hqueued.ptr, hqueued.obj⟩, ?_⟩
      · exact congrArg (List.set · p (some (.ref s.heap.length))) hqueued.table
      · exact hqueued.updateEnd ▸ Nat.le_succ _
      · constructor
        · intro h
          cases htext.1 h
        · intro heq
          exact absurd (hqueued.updateEnd.symm.trans heq) (Nat.succ_ne_self _)

/-- An object that begins with its type is made when it is fetched for the first time. -/
theorem fetchObj_created (layout : Layout l h words hash) {i : ℕ} {shape : Shape}
    {type : Symbol} {pushes : List Push} (registered : Bool) (hshape : l.shape h i = some shape)
    (hcapital : Capital type.name) (htext : shape.IsText ↔ registered = false)
    (hi : hash (.ref i) = some p) (hlaid : Laid hash words p (.object (.symbol type) :: pushes))
    (hresult : ∀ s, (match l.fetcher type with
        | some f => callFetcher l words (fetchObj l words (fuel + 3)) f p s
        | none => do
          let n ← l.slots type
          some (true, s.allocate (.instance type (List.replicate n (.symbol l.nil))))) =
      some (registered, .ref s.heap.length, { s with heap := s.heap ++ l.fresh s.heap.length shape }))
    (hs : s.Valid l h words hash busy) (hnone : s.table[p]? = some none) :
    ∃ w s', fetchObj l words (fuel + 4) p s = some (w, s') ∧ s'.Valid l h words hash busy ∧
      Grows s s' ∧ Fetched hash s' (.ref i) w := by
  obtain ⟨s₁, hs₁, hatom, hok, -, hfetch⟩ := fetchObj_typed layout
    (fetchesAt_symbol layout fuel type) hcapital hs hnone hlaid
  have hnone₁ : s₁.table[p]? = some none := (hatom.refs i p hi).trans hnone
  obtain ⟨s', hregister, hcreated⟩ := register_created hs₁
    ((layout.lt hi).trans_le hs₁.table) htext
  obtain ⟨hs', hfetched⟩ := hcreated.valid layout hs₁ hok hi hshape hnone₁
  refine ⟨_, s', ?_, hs', hatom.grows.trans (hcreated.grows hnone₁), hfetched⟩
  rw [hfetch, hresult s₁]
  exact hregister

theorem callFetcher_written {node : Node} {f : Fetcher} {str : List Char}
    {fetch : ℕ → FetchState → Option (Value × FetchState)} (hwritten : Written node f str)
    (hlaid : Laid hash words (p + 1) (pushString str)) :
    callFetcher l words fetch f p s =
      some (false, .ref s.heap.length, { s with heap := s.heap ++ [node] }) := by
  cases hwritten with
  | string => simp [callFetcher, fetchTempString_laid hlaid, FetchState.allocate]
  | bignum z =>
    simp [callFetcher, fetchTempString_laid hlaid, parseInteger_formatInteger,
      FetchState.makeRational, FetchState.allocate, z.2]
  | ratio q =>
    simp [callFetcher, fetchTempString_laid hlaid, parseRational_formatRational,
      FetchState.makeRational, FetchState.allocate, q.2]

/-- An object with an address is fetched. -/
theorem fetchObj_ref {g : Graph l} (layout : Layout l g.heap words hash) {i : ℕ} {shape : Shape}
    (hshape : l.shape g.heap i = some shape) (hi : hash (.ref i) = some p)
    (hs : s.Valid l g.heap words hash busy) :
    ∃ w s', fetchObj l words (fuel + 4) p s = some (w, s') ∧ s'.Valid l g.heap words hash busy ∧
      Grows s s' ∧ Fetched hash s' (.ref i) w := by
  rcases hs.entry layout hi with hnone | ⟨w, hw⟩
  case inr => exact ⟨w, s, fetchObj_cached hw, hs, .refl s, p, hi, hw⟩
  have htyped := fun f => capital_fetcher f
  cases shape with
  | text node =>
    obtain ⟨-, f, str, hwritten, hstar⟩ := Lisp.star_text hshape
    have hlaid : Laid hash words p (.object (l.type f) :: pushString str) := layout.pushes hstar hi
    refine fetchObj_created layout false hshape (htyped f) (by simp [Shape.IsText])
      hi hlaid (fun s => ?_) hs hnone
    rw [Lisp.fetcher_type]
    exact callFetcher_written hwritten hlaid.2
  | list elements =>
    have hlaid := layout.pushes (Lisp.star_list hshape) hi
    refine fetchObj_created layout true hshape (htyped .list)
      (by simp [Shape.IsText]) hi hlaid (fun s => ?_) hs hnone
    have hword : words[p + 1]? = some elements.length := hlaid.2.1
    have hpos : 0 < elements.length := List.length_pos_iff.2 (Lisp.trueList_ref (Lisp.shape_list hshape))
    rw [Lisp.fetcher_type]
    simp [callFetcher, hword, FetchState.makeList, listTail, hpos, Lisp.fresh]
  | pair car cdr =>
    have hlaid := layout.pushes (Lisp.star_pair hshape).2 hi
    refine fetchObj_created layout true hshape (htyped .cons)
      (by simp [Shape.IsText]) hi hlaid (fun s => ?_) hs hnone
    rw [Lisp.fetcher_type]
    rfl
  | table test entries =>
    have hlaid := layout.pushes (Lisp.star_table hshape).2 hi
    refine fetchObj_created layout true hshape (htyped .hashTable)
      (by simp [Shape.IsText]) hi hlaid (fun s => ?_) hs hnone
    rw [Lisp.fetcher_type]
    rfl
  | object type slots =>
    obtain ⟨hnode, hstar⟩ := Lisp.star_object hshape
    have hslots := g.slots type slots (List.mem_of_getElem? hnode)
    have hlaid := layout.pushes hstar hi
    refine fetchObj_created layout true hshape (l.upper type _ hslots)
      (by simp [Shape.IsText]) hi hlaid (fun s => ?_) hs hnone
    rw [Lisp.fetcher_class hslots]
    simp [hslots, FetchState.allocate, Lisp.fresh]

/-- An object of the graph, or an atom, is fetched. -/
theorem fetchObj_value (fuel : ℕ) {g : Graph l} (layout : Layout l g.heap words hash) {v : Value}
    (hv : hash v = some p) (hready : Ready s v) (hs : s.Valid l g.heap words hash busy) :
    ∃ w s', fetchObj l words (fuel + 4) p s = some (w, s') ∧ s'.Valid l g.heap words hash busy ∧
      Grows s s' ∧ Fetched hash s' v w := by
  cases v with
  | ref i =>
    obtain ⟨-, reservation, hstar, -⟩ := layout.laid _ p hv
    obtain ⟨shape, hshape⟩ := Graph.exists_shape (g := g) (i := i) (by
      by_contra hle
      rw [Lisp.storeObjectStar, List.getElem?_eq_none (not_lt.1 hle)] at hstar
      cases hstar)
    exact fetchObj_ref layout hshape hv hs
  | _ =>
    obtain ⟨s', hfetch, hs', hatom, hfetched⟩ :=
      fetchesAt_atom layout (fuel + 1) (by rintro i ⟨⟩) busy s p hs hready hv
    exact ⟨_, s', hfetch, hs', hatom.grows, hfetched⟩

end FetchObj

end PVS.Store
