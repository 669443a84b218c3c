import PVS.Store.UpdateFetched
import Mathlib.Data.List.Nodup

/-! What is fetched is what was stored. -/

namespace PVS.Store

/-! ### What was fetched in the end -/

section Fetch

variable {l : Lisp} {g : Graph l} {words : List ℕ} {hash : Value → Option ℕ}

theorem initial_table (size : ℕ) (p : ℕ) (w : Value) :
    (ensureVectorSize none (List.replicate 10000 none) 10000 size).1[p]? ≠ some (some w) := by
  intro hp
  have hmem := List.mem_of_getElem? hp
  rw [ensureVectorSize] at hmem
  split_ifs at hmem
  · rcases List.mem_append.1 hmem with hmem | hmem
    · cases (List.mem_replicate.1 (List.mem_of_mem_take hmem)).2
    · cases (List.mem_replicate.1 hmem).2
  · cases (List.mem_replicate.1 hmem).2

/-- The rounds of the loop of `fetch-object` that are always enough. -/
def enoughRounds (size : ℕ) : ℕ :=
  (ensureVectorSize (none : Option Value) (List.replicate 10000 none) 10000 size).1.length

theorem fetchObject_complete (layout : Layout l g.heap words hash)
    (hroot : hash (.ref g.root) = some 2) (fuel rounds : ℕ)
    (hrounds : enoughRounds words.length ≤ rounds) :
    ∃ root s, fetchObject l words (fuel + 4) rounds 1 = some (root, s.heap) ∧
      s.Valid l g.heap words hash none ∧ s.updateEnd = 0 ∧ Fetched hash s (.ref g.root) root := by
  let table := ensureVectorSize (none : Option Value) (List.replicate 10000 none) 10000 words.length
  let s₀ : FetchState := ⟨table.1, List.replicate 1000 (.symbol l.nil), 1000, List.replicate 10000 0,
    1000, 0, .unknown, []⟩
  have hnone : ∀ (p : ℕ) (w : Value), s₀.table[p]? ≠ some (some w) := initial_table words.length
  have hunfetched : ∀ v w, ¬ Fetched hash s₀ v w := by
    rintro v w ⟨p, -, hw⟩
    exact hnone p w hw
  have hs₀ : s₀.Valid l g.heap words hash none := by
    have hlength : 10000 ≤ (List.replicate 10000 (none : Option Value)).length :=
      (List.length_replicate ..).ge
    have htable := ensureVectorSize_grows none words.length hlength
    refine ⟨htable.1.trans htable.2, .inr ⟨rfl, hnone⟩, (List.length_replicate ..).ge, Nat.zero_le _,
      ?_, Nat.zero_le _, ?_, ?_, ?_, ?_, ?_, ?_, ?_⟩
    · change 1000 ≤ (List.replicate 10000 0).length
      rw [List.length_replicate]
      omega
    · exact fun v w hw => absurd hw (hunfetched v w)
    · exact fun i w hw => absurd hw (hunfetched _ w)
    · exact fun i i' j j' shape shape' _ hj => absurd hj (hunfetched _ _)
    · exact fun k hk => absurd hk (Nat.not_lt_zero k)
    · exact fun k k' hk => absurd hk (Nat.not_lt_zero k)
    · rintro i ⟨⟩
    · intro j test entries hj
      cases hj
  have hready : Ready s₀ (.ref g.root) := by
    rintro - a ⟨⟩
  obtain ⟨root, s₁, hfetch, hs₁, hgrows, hfetched⟩ := fetchObj_value fuel layout hroot
    hready hs₀
  have hleft : s₁.table.count none + s₁.updateEnd ≤ rounds :=
    hgrows.left.trans (List.count_le_length.trans hrounds)
  obtain ⟨s, hloop, hs, hend, hkeeps⟩ := updateLoop_filled fuel layout rounds s₁ hs₁ hleft
  refine ⟨root, s, ?_, hs, hend, hkeeps.fetched hfetched⟩
  simp only [fetchObject, layout.size, Option.bind_eq_bind, Option.bind_some]
  rw [show (1 + 1) = 2 from rfl, hfetch]
  simp only [Option.bind_some, hloop]

end Fetch

/-! ### Isomorphisms -/

section Isomorphism

variable {l : Lisp} {g : Graph l} {words : List ℕ} {hash : Value → Option ℕ}
  {fetched : Value → Value → Prop} {image : Value → Value} {h : Heap} {shape : Shape} {j : ℕ}

theorem Complete.child (hcomplete : Complete l fetched h shape j) {v : Value}
    (hv : v ∈ shape.children) : ∃ w, fetched v w := by
  cases shape with
  | text node => cases hv
  | list elements =>
    obtain ⟨k, hk⟩ := List.mem_iff_getElem?.1 hv
    obtain ⟨w, hw, -⟩ := hcomplete k v hk
    exact ⟨w, hw⟩
  | pair car cdr =>
    obtain ⟨car', cdr', hcar, hcdr, -⟩ := hcomplete
    simp only [Shape.children, List.mem_cons, List.not_mem_nil, or_false] at hv
    rcases hv with rfl | rfl
    · exact ⟨car', hcar⟩
    · exact ⟨cdr', hcdr⟩
  | table test entries =>
    obtain ⟨entries', -, hall⟩ := hcomplete
    obtain ⟨ent, hent, hv⟩ := List.mem_flatMap.1 hv
    obtain ⟨ent', -, hkey, hval⟩ := mem_of_forall₂ hall.flip (List.mem_reverse.2 hent)
    simp only [List.mem_cons, List.not_mem_nil, or_false] at hv
    rcases hv with rfl | rfl
    · exact ⟨ent'.1, hkey⟩
    · exact ⟨ent'.2, hval⟩
  | object type slots =>
    obtain ⟨slots', -, hall⟩ := hcomplete
    obtain ⟨w, -, hw⟩ := mem_of_forall₂ hall.flip hv
    exact ⟨w, hw⟩

theorem trueList_cells {elements : List Value} (himage : ∀ v w, fetched v w → image v = w)
    (hcells : ∀ k v, elements[k]? = some v →
      ∃ w, fetched v w ∧ h[j + k]? = some (.cons w (listTail l j elements.length (k + 1))))
    (n k : ℕ) (hk : n + k = elements.length) :
    l.trueList h (n + 1) (listTail l j elements.length k) =
      some (some ((elements.drop k).map image)) := by
  induction n generalizing k with
  | zero =>
    rw [listTail, if_neg (by omega), List.drop_of_length_le (by omega)]
    simp [Lisp.trueList]
  | succ n ih =>
    have hlt : k < elements.length := by omega
    obtain ⟨w, hw, hcell⟩ := hcells k elements[k] (List.getElem?_eq_getElem hlt)
    rw [listTail, if_pos hlt, Lisp.trueList_succ_ref, hcell]
    simp only
    rw [ih (k + 1) (by omega), List.drop_eq_getElem_cons hlt, List.map_cons, himage _ _ hw]
    rfl

theorem gethash_of_mem {entries : List (Value × Value)} (ent : Value × Value)
    (hnodup : (entries.map Prod.fst).Nodup) (hent : ent ∈ entries) :
    gethash ent.1 entries = some ent.2 := by
  induction entries with
  | nil => cases hent
  | cons e entries ih =>
    rw [List.map_cons, List.nodup_cons] at hnodup
    rcases List.mem_cons.1 hent with rfl | hent
    · simp [gethash]
    · have hne : e.1 ≠ ent.1 := by
        intro heq
        exact hnodup.1 (heq ▸ List.mem_map_of_mem hent)
      rw [gethash, List.find?_cons_of_neg (by simpa using hne)]
      exact ih hnodup.2 hent

/-- An object that is filled in is the same object. -/
theorem Complete.same (hcomplete : Complete l fetched h shape j)
    (himage : ∀ v w, fetched v w → image v = w)
    (hinjective : ∀ v v' w, fetched v w → fetched v' w → v = v')
    (hlist : ∀ elements, shape = .list elements → elements ≠ [])
    (htable : ∀ test entries, shape = .table test entries →
      test = .eq ∧ (entries.map Prod.fst).Nodup) : SameObject l image h shape j := by
  cases shape with
  | text node => exact hcomplete
  | list elements =>
    have hpos := List.length_pos_iff.2 (hlist elements rfl)
    have htrue := trueList_cells himage hcomplete elements.length 0 rfl
    rw [listTail, if_pos hpos] at htrue
    exact htrue
  | pair car cdr =>
    obtain ⟨car', cdr', hcar, hcdr, hcell⟩ := hcomplete
    rw [SameObject, himage _ _ hcar, himage _ _ hcdr]
    exact hcell
  | table test entries =>
    obtain ⟨entries', hcell, hall⟩ := hcomplete
    obtain ⟨rfl, hkeys⟩ := htable test entries rfl
    have heq : entries.reverse.map (fun ent => (image ent.1, image ent.2)) = entries' := by
      rw [← List.forall₂_eq_eq_eq, List.forall₂_map_left_iff]
      exact hall.imp fun ent ent' hent => Prod.ext (himage _ _ hent.1) (himage _ _ hent.2)
    refine ⟨entries', hcell, ?_, fun ent hent => ?_⟩
    · rw [← hall.length_eq, List.length_reverse]
    · have hmem : (image ent.1, image ent.2) ∈ entries' := by
        rw [← heq]
        exact List.mem_map.2 ⟨ent, List.mem_reverse.2 hent, rfl⟩
      refine gethash_of_mem (image ent.1, image ent.2) ?_ hmem
      have hfetched : ∀ key ∈ entries.reverse.map Prod.fst, ∃ w, fetched key w := by
        intro key hkey
        obtain ⟨e, he, rfl⟩ := List.mem_map.1 hkey
        obtain ⟨e', -, hkey, -⟩ := mem_of_forall₂ hall.flip he
        exact ⟨e'.1, hkey⟩
      have hkeys' : entries'.map Prod.fst = (entries.reverse.map Prod.fst).map image := by
        rw [← heq, List.map_map, List.map_map]
        rfl
      rw [hkeys']
      refine List.Nodup.map_on ?_ ?_
      · intro v hv v' hv' hsame
        obtain ⟨w, hw⟩ := hfetched v hv
        obtain ⟨w', hw'⟩ := hfetched v' hv'
        rw [himage v w hw, himage v' w' hw'] at hsame
        subst hsame
        exact hinjective v v' w hw hw'
      · rw [List.map_reverse, List.nodup_reverse]
        exact hkeys
  | object type slots =>
    obtain ⟨slots', hcell, hall⟩ := hcomplete
    have heq : slots.map image = slots' := by
      rw [← List.forall₂_eq_eq_eq, List.forall₂_map_left_iff]
      exact hall.imp himage
    rw [SameObject, heq]
    exact hcell

/-- What was fetched of an object, if anything. -/
def FetchState.imageOf (hash : Value → Option ℕ) (s : FetchState) (v : Value) : Value :=
  match hash v with
  | some p => (s.table[p]?.join).getD v
  | none => v

theorem FetchState.imageOf_fetched {s : FetchState} {v w : Value} (hfetched : Fetched hash s v w) :
    s.imageOf hash v = w := by
  obtain ⟨p, hp, hw⟩ := hfetched
  simp [FetchState.imageOf, hp, hw]

/-- Once nothing is left to be filled in, what was fetched is the graph, if the tables allow. -/
theorem FetchState.Valid.isomorphism {s : FetchState} {root : Value}
    (hs : s.Valid l g.heap words hash none) (hend : s.updateEnd = 0)
    (hroot : Fetched hash s (.ref g.root) root) (htables : g.EqTables) :
    Isomorphism g root s.heap (s.imageOf hash) := by
  have hobject : ∀ i w, Fetched hash s (.ref i) w → ∃ j shape, w = .ref j ∧
      l.shape g.heap i = some shape ∧ Complete l (Fetched hash s) s.heap shape j := by
    intro i w hw
    obtain ⟨j, shape, hj, hshape, -, hstate⟩ := hs.object i w hw
    rcases hstate with hbusy | ⟨k, hk, -⟩ | hcomplete
    · cases hbusy
    · omega
    · exact ⟨j, shape, hj, hshape, hcomplete⟩
  have hreachable : ∀ v, g.Reachable v → ∃ w, Fetched hash s v w := by
    intro v hv
    induction hv with
    | root => exact ⟨root, hroot⟩
    | @child v u _ hu ih =>
      obtain ⟨w, hw⟩ := ih
      cases v with
      | ref i =>
        obtain ⟨j, shape, -, hshape, hcomplete⟩ := hobject i w hw
        rw [Lisp.children, hshape] at hu
        exact hcomplete.child hu
      | _ => cases hu
  refine ⟨s.imageOf_fetched hroot, ?_, ?_, ?_⟩
  · intro v v' hv hv' heq
    obtain ⟨w, hw⟩ := hreachable v hv
    obtain ⟨w', hw'⟩ := hreachable v' hv'
    rw [s.imageOf_fetched hw, s.imageOf_fetched hw'] at heq
    subst heq
    exact hs.injective hw hw'
  · intro v hv hatom
    obtain ⟨w, hw⟩ := hreachable v hv
    rw [s.imageOf_fetched hw]
    exact hs.atom v w hw hatom
  · intro i hi
    obtain ⟨w, hw⟩ := hreachable _ hi
    obtain ⟨j, shape, rfl, hshape, hcomplete⟩ := hobject i w hw
    refine ⟨j, shape, s.imageOf_fetched hw, hshape, hcomplete.same
      (fun _ _ => s.imageOf_fetched) (fun _ _ _ => hs.injective) ?_ ?_⟩
    · rintro elements rfl
      exact Lisp.trueList_ref (Lisp.shape_list hshape)
    · rintro test entries rfl
      exact ⟨htables i test entries hi hshape,
        g.keys test entries (List.mem_of_getElem? (Lisp.star_table hshape).1)⟩

/-- A fetched table compares its keys by `eq`, and so do the tables that it is isomorphic to. -/
theorem Isomorphism.eqTables {root : Value} (hiso : Isomorphism g root h image)
    (htables : ∀ (j : ℕ) (test : Test) (entries : List (Value × Value)),
      h[j]? = some (.hashTable test entries) → test = .eq) : g.EqTables := by
  intro i test entries hi hshape
  obtain ⟨j, shape, -, hshape', hsame⟩ := hiso.object i hi
  obtain rfl := Option.some.inj (hshape.symm.trans hshape')
  obtain ⟨entries', hj, -⟩ := hsame
  exact htables j test entries' hj

end Isomorphism

/-! ### Files -/

theorem reverseEndian_bytes {a b c d : ℕ} (ha : a < 256) (hb : b < 256) (hc : c < 256)
    (hd : d < 256) : reverseEndian (a + 256 * b + 65536 * c + 16777216 * d) =
      d + 256 * c + 65536 * b + 16777216 * a := by
  simp only [reverseEndian]
  omega

theorem reverseEndian_reverseEndian {w : ℕ} (hw : w < 2 ^ 32) :
    reverseEndian (reverseEndian w) = w := by
  obtain ⟨a, b, c, d, ha, hb, hc, hd, rfl⟩ : ∃ a b c d, a < 256 ∧ b < 256 ∧ c < 256 ∧ d < 256 ∧
      a + 256 * b + 65536 * c + 16777216 * d = w :=
    ⟨w % 256, w / 256 % 256, w / 65536 % 256, w / 16777216, by omega, by omega, by omega, by omega,
      by omega⟩
  rw [reverseEndian_bytes ha hb hc hd, reverseEndian_bytes hd hc hb ha]

theorem reverseEndian_words {words : List ℕ} (hwords : ∀ w ∈ words, w < 2 ^ 32) :
    (words.map reverseEndian).map reverseEndian = words := by
  rw [List.map_map]
  refine (List.map_congr_left fun w hw => ?_).trans (List.map_id words)
  exact reverseEndian_reverseEndian (hwords w hw)

/-- A file is read in either byte order. -/
theorem fetchObjectFromFile_eq {l : Lisp} {h : Heap} {words : List ℕ} {hash : Value → Option ℕ}
    (layout : Layout l h words hash) (fuel rounds : ℕ) :
    fetchObjectFromFile l fuel rounds words = fetchObject l words fuel rounds 1 ∧
      ((∀ w ∈ words, w < 2 ^ 32) → fetchObjectFromFile l fuel rounds (words.map reverseEndian) =
        fetchObject l words fuel rounds 1) := by
  constructor
  · simp [fetchObjectFromFile, layout.first, layout.size]
  · intro hwords
    have hlength : reverseEndian (reverseEndian words.length) = words.length :=
      reverseEndian_reverseEndian (hwords _ (List.mem_of_getElem? layout.size))
    have hone : reverseEndian 1 = 16777216 := rfl
    have hfirst : reverseEndian 16777216 = 1 := rfl
    have hback : List.map (reverseEndian ∘ reverseEndian) words = words := by
      rw [← List.map_map]
      exact reverseEndian_words hwords
    simp [fetchObjectFromFile, layout.first, layout.size, hone, hfirst, hlength, hback]

/-! ### The round trip -/

def Restores {l : Lisp} (g : Graph l) (fetched : Option (Value × Heap)) : Prop :=
  ∃ root h, fetched = some (root, h) ∧ Isomorphic g root h

/-- With enough fuel the graph is stored, and what is fetched from the words, from a file of them, or
from one of the other byte order is isomorphic to it. -/
def RoundTrips {l : Lisp} (g : Graph l) : Prop :=
  ∃ n, ∀ fuel ≥ n, ∃ words, storeObject l g.heap fuel (.ref g.root) = some words ∧
    ∃ m, ∀ rounds ≥ m, Restores g (fetchObject l words fuel rounds 1) ∧
      Restores g (fetchObjectFromFile l fuel rounds words) ∧
        ((∀ w ∈ words, w < 2 ^ 32) →
          Restores g (fetchObjectFromFile l fuel rounds (words.map reverseEndian)))

section RoundTrip

variable {l : Lisp} (g : Graph l)

/-- What is fetched is isomorphic to the graph if and only if each table of the graph compares its
keys by `eq`. -/
theorem fetch_stored (fuel : ℕ) (hobjects : g.objects.card < fuel + 4) :
    ∃ words, storeObject l g.heap (fuel + 4) (.ref g.root) = some words ∧
      ∀ rounds ≥ enoughRounds words.length,
        (Restores g (fetchObject l words (fuel + 4) rounds 1) ↔ g.EqTables) ∧
        fetchObjectFromFile l (fuel + 4) rounds words = fetchObject l words (fuel + 4) rounds 1 ∧
        ((∀ w ∈ words, w < 2 ^ 32) →
          fetchObjectFromFile l (fuel + 4) rounds (words.map reverseEndian) =
            fetchObject l words (fuel + 4) rounds 1) := by
  obtain ⟨shape, hshape, -⟩ := g.rootShape
  have hlt : g.root < g.heap.length := by
    by_contra hle
    rw [Lisp.shape, List.getElem?_eq_none (not_lt.1 hle)] at hshape
    cases hshape
  obtain ⟨words, hash, hstore, layout, hroot⟩ :=
    storeObject_layout Graph.closed (Graph.ref_mem hlt) hobjects
  refine ⟨words, hstore, fun rounds hrounds => ⟨?_, fetchObjectFromFile_eq layout _ rounds⟩⟩
  obtain ⟨root, s, hfetch, hs, hend, hfetched⟩ :=
    fetchObject_complete layout hroot fuel rounds hrounds
  rw [hfetch]
  constructor
  · rintro ⟨root', h, heq, image, hiso⟩
    cases heq
    exact hiso.eqTables hs.tables
  · intro htables
    exact ⟨root, s.heap, rfl, _, hs.isomorphism hend hfetched htables⟩

theorem RoundTrips.eqTables (htrip : RoundTrips g) : g.EqTables := by
  obtain ⟨n, hn⟩ := htrip
  let fuel := max n (g.objects.card + 1)
  obtain ⟨words, hstore, m, hm⟩ := hn (fuel + 4) (by omega)
  obtain ⟨words', hstore', hrounds⟩ := fetch_stored g fuel (by omega)
  obtain rfl := Option.some.inj (hstore.symm.trans hstore')
  let rounds := max m (enoughRounds words.length)
  exact (hrounds rounds (le_max_right ..)).1.1 (hm rounds (le_max_left ..)).1

/-- A graph is restored if and only if its tables compare their keys by `eq`. -/
theorem roundTrips_iff : RoundTrips g ↔ g.EqTables := by
  refine ⟨RoundTrips.eqTables g, fun htables => ⟨g.objects.card + 5, fun fuel hfuel => ?_⟩⟩
  obtain ⟨n, rfl⟩ : ∃ n, fuel = n + 4 := ⟨fuel - 4, by omega⟩
  obtain ⟨words, hstore, hrounds⟩ := fetch_stored g n (by omega)
  refine ⟨words, hstore, enoughRounds words.length, fun rounds hm => ?_⟩
  obtain ⟨hiff, hfile, hreversed⟩ := hrounds rounds hm
  have hrestores := hiff.2 htables
  refine ⟨hrestores, by rwa [hfile], fun hwords => by rwa [hreversed hwords]⟩

end RoundTrip

/-! ### A table that compares its keys by `equal` -/

def plainLisp : Lisp := ⟨fun _ => ['P', 'V', 'S'], fun _ => none, by rintro c n ⟨⟩, by rintro c n ⟨⟩⟩

/-- A table with the string `a` for its key. -/
def equalTable : Graph plainLisp where
  heap := [.hashTable .equal [(.ref 1, .symbol plainLisp.nil)], .string ['a']]
  refs := by
    intro node hnode i hi
    simp only [List.mem_cons, List.not_mem_nil, or_false] at hnode
    rcases hnode with rfl | rfl
    · simp [Node.values] at hi
      simp [hi]
    · cases hi
  chains := by
    intro i hi
    match i, hi with
    | 0, _ => decide
    | 1, _ => decide
  keys := by
    intro test entries hmem
    simp only [List.mem_cons, List.not_mem_nil, or_false, reduceCtorEq] at hmem
    cases hmem
    simp
  slots := by
    intro type slots hmem
    simp at hmem
  root := 0
  rootShape := ⟨.table .equal [(.ref 1, .symbol plainLisp.nil)], rfl, id⟩

/-- The table comes back as one that compares its keys by `eq`. -/
theorem not_roundTrips_equalTable : ¬ RoundTrips equalTable := by
  intro htrip
  have hroot : equalTable.Reachable (.ref 0) := .root
  have heq : Test.equal = .eq := htrip.eqTables equalTable 0 .equal _ hroot rfl
  cases heq

end PVS.Store
