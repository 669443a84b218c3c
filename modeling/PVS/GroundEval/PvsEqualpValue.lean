import PVS.GroundEval.PvsEqualpParts
import Mathlib.Data.List.Perm.Subperm

/-! When the equality of the evaluator is the equality of the values -/

namespace PVS.GroundEval

variable {S : LispState} {D : Datatypes}

/-! ### Tables -/

theorem gethash_mem {hash : List (ℕ × LispVal)} {k : ℕ} {u : LispVal}
    (h : gethash k hash = some u) : (k, u) ∈ hash := by
  simp only [gethash, Option.map_eq_some_iff] at h
  obtain ⟨⟨l, v⟩, hl, rfl⟩ := h
  obtain rfl : l = k := by simpa using List.find?_some hl
  exact List.mem_of_find?_eq_some hl

theorem gethash_eq_none {hash : List (ℕ × LispVal)} {k : ℕ} :
    gethash k hash = none ↔ k ∉ hash.map Prod.fst := by
  simp [gethash, List.find?_eq_none]
  grind

theorem gethash_of_mem {hash : List (ℕ × LispVal)} {k : ℕ} {u : LispVal}
    (hnd : (hash.map Prod.fst).Nodup) (h : (k, u) ∈ hash) : gethash k hash = some u := by
  induction hash with
  | nil => simp at h
  | cons entry hash ih =>
    obtain ⟨l, x⟩ := entry
    simp only [List.map_cons, List.nodup_cons] at hnd
    rcases List.mem_cons.1 h with h | h
    · cases h
      simp [gethash]
    · have hne : l ≠ k := by
        rintro rfl
        exact hnd.1 (List.mem_map_of_mem h)
      have hrest := ih hnd.2 h
      simpa [gethash, hne] using hrest

/-- Tables with the same keys have no entry at the same indices. -/
theorem gethash_none {hash hash' : List (ℕ × LispVal)} {k : ℕ}
    (hnd : (hash.map Prod.fst).Nodup) (hlen : hash.length = hash'.length)
    (hkeys : ∀ entry ∈ hash, (gethash entry.1 hash').isSome = true)
    (h : gethash k hash = none) : gethash k hash' = none := by
  rw [gethash_eq_none] at h ⊢
  have hsub : hash.map Prod.fst ⊆ hash'.map Prod.fst := by
    intro l hl
    obtain ⟨entry, hentry, rfl⟩ := List.mem_map.1 hl
    by_contra hnot
    have hnone := gethash_eq_none.2 hnot
    simpa [hnone] using hkeys entry hentry
  have hperm := (hnd.subperm hsub).perm_of_length_le (by simp [hlen])
  exact fun hk => h (hperm.mem_iff.2 hk)

/-! ### Values -/

/-- A representation of a type represents one value. -/
theorem Denotes.functional {T : PvsType} {x : LispVal} {p q : PvsVal} (hp : Denotes S D T x p)
    (hq : Denotes S D T x q) : p = q := by
  induction hp generalizing q with
  | isTrue =>
    generalize hx : LispVal.symbol "T" = x at hq
    cases hq with
    | isTrue => rfl
    | isFalse => simp at hx
  | isFalse =>
    generalize hx : LispVal.symbol "NIL" = x at hq
    cases hq with
    | isTrue => simp at hx
    | isFalse => rfl
  | character | string | number | nil => cases hq; rfl
  | cons _ _ ihcar ihcdr =>
    cases hq with
    | cons hcar hcdr => rw [ihcar hcar, ihcdr hcdr]
  | tuple hxs hps _ ih =>
    cases hq with
    | tuple _ hqs hq =>
      congr 1
      refine List.ext_getElem (by omega) fun i h h' => ?_
      exact ih i _ _ _ (List.getElem?_eq_getElem (by omega)) (List.getElem?_eq_getElem (by omega))
        (List.getElem?_eq_getElem h)
        (hq i _ _ _ (List.getElem?_eq_getElem _) (List.getElem?_eq_getElem _)
          (List.getElem?_eq_getElem h'))
  | @array T x ps hx hsome _ ih =>
    generalize hn : ps.length = n at hq
    cases hq with
    | array _ _ hq =>
      congr 1
      refine List.ext_getElem hn fun i h h' => ?_
      obtain ⟨u, hu⟩ := Option.isSome_iff_exists.1 (hsome i h)
      exact ih i u _ hu (List.getElem?_eq_getElem h) (hq i u _ hu (List.getElem?_eq_getElem h'))
  | datatype hcls hxs hps _ ih =>
    cases hq with
    | datatype hcls' _ hqs hq =>
      obtain rfl := Option.some.inj (hcls.symm.trans hcls')
      congr 1
      refine List.ext_getElem (by omega) fun i h h' => ?_
      exact ih i _ _ _ (List.getElem?_eq_getElem (by omega)) (List.getElem?_eq_getElem (by omega))
        (List.getElem?_eq_getElem h)
        (hq i _ _ _ (List.getElem?_eq_getElem _) (List.getElem?_eq_getElem _)
          (List.getElem?_eq_getElem h'))

theorem Denotes.nodup {T : PvsType} {hash : List (ℕ × LispVal)} {closure : ℕ} {p : PvsVal}
    (h : Denotes S D T (.closureHash hash closure) p) : (hash.map Prod.fst).Nodup := by
  cases h with
  | array hx => exact hx.1

/-- Every element of an array represents the element of the value. -/
theorem Denotes.element {T : PvsType} {x : LispVal} {ps : List PvsVal} {n i : ℕ}
    (h : Denotes S D (.array n T) x (.seq ps)) (hi : i < n) :
    ∃ u, element S x i = some u ∧ ∃ hi : i < ps.length, Denotes S D T u ps[i] := by
  cases h with
  | array hx hsome h =>
    obtain ⟨u, hu⟩ := Option.isSome_iff_exists.1 (hsome i hi)
    exact ⟨u, hu, hi, h i u _ hu (List.getElem?_eq_getElem hi)⟩

theorem Denotes.isArray {T : PvsType} {x : LispVal} {p : PvsVal} {n : ℕ}
    (h : Denotes S D (.array n T) x p) : IsArray n x ∧ ∃ ps : List PvsVal, p = .seq ps ∧
      ps.length = n := by
  cases h with
  | array hx => exact ⟨hx, _, rfl, rfl⟩

/-- A type, and two values of it that are equal where those of the wholes are -/
def Common (S : LispState) (D : Datatypes) (p q : PvsVal) (u v : LispVal) : Prop :=
  ∃ T p' q', Denotes S D T u p' ∧ Denotes S D T v q' ∧ (p = q → p' = q')

theorem Denotes.elements {T : PvsType} {x y : LispVal} {p q : PvsVal} {n i : ℕ} {u v : LispVal}
    (hx : Denotes S D (.array n T) x p) (hy : Denotes S D (.array n T) y q) (hi : i < n)
    (hu : PVS.GroundEval.element S x i = some u) (hv : PVS.GroundEval.element S y i = some v) :
    Common S D p q u v := by
  obtain ⟨-, ps, rfl, -⟩ := hx.isArray
  obtain ⟨-, qs, rfl, -⟩ := hy.isArray
  obtain ⟨u', hu', hp, hu''⟩ := hx.element hi
  obtain ⟨v', hv', hq, hv''⟩ := hy.element hi
  obtain rfl := Option.some.inj (hu.symm.trans hu')
  obtain rfl := Option.some.inj (hv.symm.trans hv')
  refine ⟨T, _, _, hu'', hv'', fun heq => ?_⟩
  cases heq
  rfl

/-- The components that are compared have a common type. -/
theorem Part.common {x y u v : LispVal} (h : Part S x y u v) {T : PvsType} {p q : PvsVal}
    (hx : Denotes S D T x p) (hy : Denotes S D T y q) : Common S D p q u v := by
  induction h generalizing p q with
  | car =>
    cases hx with
    | array hx => exact hx.elim
    | cons hcar hcdr =>
      cases hy with
      | cons hcar' hcdr' => exact ⟨_, _, _, hcar, hcar', fun h => (PvsVal.cons.inj h).1⟩
  | cdr =>
    cases hx with
    | array hx => exact hx.elim
    | cons hcar hcdr =>
      cases hy with
      | cons hcar' hcdr' => exact ⟨_, _, _, hcdr, hcdr', fun h => (PvsVal.cons.inj h).2⟩
  | @slot cls xs ys i u v hu hv =>
    cases hx with
    | array hx => exact hx.elim
    | datatype hcls hxs hps hp =>
      cases hy with
      | datatype hcls' hys hqs hq =>
        obtain rfl := Option.some.inj (hcls.symm.trans hcls')
        have hi := (List.getElem?_eq_some_iff.1 hu).1
        refine ⟨_, _, _, hp i _ _ _ (List.getElem?_eq_getElem (by omega)) hu
          (List.getElem?_eq_getElem (by omega)), hq i _ _ _ (List.getElem?_eq_getElem (by omega)) hv
          (List.getElem?_eq_getElem (by omega)), fun h => ?_⟩
        cases h
        rfl
  | @element xs y u v i hu hv =>
    have hi := (List.getElem?_eq_some_iff.1 hu).1
    cases hx with
    | tuple hxs hps hp =>
      cases hy with
      | tuple hys hqs hq =>
        refine ⟨_, _, _, hp i _ _ _ (List.getElem?_eq_getElem (by omega)) hu
          (List.getElem?_eq_getElem (by omega)), hq i _ _ _ (List.getElem?_eq_getElem (by omega)) hv
          (List.getElem?_eq_getElem (by omega)), fun h => ?_⟩
        cases h
        rfl
    | array hxs hsome hp =>
      have hlen : xs.length = _ := hxs
      exact (Denotes.array hxs hsome hp).elements hy (by omega) hu hv
  | @version xs y u v i hu hv =>
    have hi := (List.getElem?_eq_some_iff.1 hu).1
    cases hx with
    | array hxs hsome hp =>
      have hlen : xs.length = _ := hxs
      exact (Denotes.array hxs hsome hp).elements hy (by omega) hu hv
  | closure hi _ hu hv =>
    cases hx with
    | array hxs hsome hp =>
      have hsize : _ = _ := hxs
      exact (Denotes.array hxs hsome hp).elements hy (hsize ▸ hi) hu hv
  | @entry hash hash' c c' k u v hu hv =>
    cases hx with
    | array hxs hsome hp =>
      have hk := hxs.2 _ hu
      refine (Denotes.array hxs hsome hp).elements hy hk ?_ ?_
      · simp [PVS.GroundEval.element, gethash_of_mem hxs.1 hu]
      · simp [PVS.GroundEval.element, hv]
  | flipped _ ih =>
    obtain ⟨T', p', q', hp, hq, h⟩ := ih hy hx
    exact ⟨T', p', q', hp, hq, fun heq => h heq.symm⟩

/-! ### The answers and the values -/

/-- The elements of arrays that are alike are the same or compared. -/
theorem Alike.element {n i : ℕ} {x y u v : LispVal} (h : Alike x y) (hform : SameForm x y)
    (hx : IsArray n x) (hy : IsArray n y) (hi : i < n)
    (hu : PVS.GroundEval.element S x i = some u) (hv : PVS.GroundEval.element S y i = some v) :
    u = v ∨ Part S x y u v ∨ Part S x y v u := by
  cases x with
  | array xs => exact .inr (.inl (.element hu hv))
  | outerArray xs => exact .inr (.inl (.version hu hv))
  | string cs =>
    cases y with
    | string cs' =>
      obtain rfl : cs = cs' := h
      exact .inl (Option.some.inj (hu.symm.trans hv))
    | _ => exact h.elim
  | arrayClosure size closure =>
    cases y with
    | arrayClosure size' closure' =>
      obtain rfl : size = n := hx
      obtain rfl : size' = size := hy
      exact .inr (.inl (.closure hi hi hu hv))
    | _ => exact h.elim
  | closureHash hash closure =>
    cases y with
    | closureHash hash' closure' =>
      obtain rfl : closure = closure' := h
      simp only [PVS.GroundEval.element] at hu hv
      cases hk : gethash i hash with
      | none =>
        rw [hk, Option.none_or] at hu
        rw [gethash_none hx.1 hform.1 hform.2 hk, Option.none_or] at hv
        exact .inl (Option.some.inj (hu.symm.trans hv))
      | some w =>
        obtain ⟨w', hw'⟩ := Option.isSome_iff_exists.1 (hform.2 _ (gethash_mem hk))
        rw [hk, Option.some_or] at hu
        rw [hw', Option.some_or] at hv
        obtain rfl := Option.some.inj hu
        obtain rfl := Option.some.inj hv
        exact .inr (.inl (.entry (gethash_mem hk) hw'))
    | _ => exact h.elim
  | function closure =>
    cases y with
    | array ys => exact .inr (.inr (.flipped (.element hv hu)))
    | outerArray ys => exact .inr (.inr (.flipped (.version hv hu)))
    | _ => exact h.elim
  | _ => exact hx.elim

/-- Alike representations with equal components represent the same value. -/
theorem Denotes.ext {T : PvsType} {x y : LispVal} {p q : PvsVal} (hx : Denotes S D T x p)
    (hy : Denotes S D T y q) (hform : SameForm x y) (halike : Alike x y)
    (hpart : ∀ u v, Part S x y u v → ∀ T' p' q', Denotes S D T' u p' → Denotes S D T' v q' →
      p' = q') : p = q := by
  cases hx with
  | isTrue =>
    cases hy with
    | isTrue => rfl
    | isFalse => simp [Alike] at halike
  | isFalse =>
    cases hy with
    | isTrue => simp [Alike] at halike
    | isFalse => rfl
  | character =>
    cases hy with
    | character => rw [show _ = _ from halike]
  | string =>
    cases hy with
    | string => rw [show _ = _ from halike]
  | number =>
    cases hy with
    | number => rw [show _ = _ from halike]
  | nil =>
    cases hy with
    | nil => rfl
    | cons => exact halike.elim
  | cons hcar hcdr =>
    cases hy with
    | nil => exact halike.elim
    | cons hcar' hcdr' =>
      rw [hpart _ _ .car _ _ _ hcar hcar', hpart _ _ .cdr _ _ _ hcdr hcdr']
  | tuple hxs hps hp =>
    cases hy with
    | tuple hys hqs hq =>
      congr 1
      refine List.ext_getElem (by omega) fun i h h' => ?_
      exact hpart _ _ (.element (List.getElem?_eq_getElem (by omega))
        (List.getElem?_eq_getElem (by omega))) _ _ _
        (hp i _ _ _ (List.getElem?_eq_getElem (by omega)) (List.getElem?_eq_getElem _)
          (List.getElem?_eq_getElem h))
        (hq i _ _ _ (List.getElem?_eq_getElem _) (List.getElem?_eq_getElem _)
          (List.getElem?_eq_getElem h'))
  | @array T _ ps hx hsome hp =>
    have hx' := Denotes.array hx hsome hp (D := D)
    obtain ⟨hy', qs, rfl, hqs⟩ := hy.isArray
    congr 1
    refine List.ext_getElem hqs.symm fun i h h' => ?_
    obtain ⟨u, hu, _, hup⟩ := hx'.element h
    obtain ⟨v, hv, _, hvq⟩ := hy.element h
    obtain rfl | huv | hvu := halike.element hform hx hy' h hu hv
    · exact hup.functional hvq
    · exact hpart u v huv _ _ _ hup hvq
    · exact (hpart v u hvu _ _ _ hvq hup).symm
  | datatype hcls hxs hps hp =>
    cases hy with
    | datatype hcls' hys hqs hq =>
      obtain rfl : _ = _ := halike
      obtain rfl := Option.some.inj (hcls.symm.trans hcls')
      congr 1
      refine List.ext_getElem (by omega) fun i h h' => ?_
      exact hpart _ _ (.slot (List.getElem?_eq_getElem (by omega))
        (List.getElem?_eq_getElem (by omega))) _ _ _
        (hp i _ _ _ (List.getElem?_eq_getElem (by omega)) (List.getElem?_eq_getElem _)
          (List.getElem?_eq_getElem h))
        (hq i _ _ _ (List.getElem?_eq_getElem _) (List.getElem?_eq_getElem _)
          (List.getElem?_eq_getElem h'))

theorem Denotes.character_eq {T : PvsType} {c : Char} {p : PvsVal}
    (h : Denotes S D T (.character c) p) : p = .character c := by
  cases h with
  | character => rfl
  | array hx => exact hx.elim

theorem Denotes.string_eq {T : PvsType} {cs cs' : List Char} {p : PvsVal} {n : ℕ}
    (hx : Denotes S D (.array n T) (.string cs) p) (hy : Denotes S D (.array n T) (.string cs') p) :
    cs = cs' := by
  obtain ⟨hlen, ps, rfl, -⟩ := hx.isArray
  obtain ⟨hlen', -⟩ := hy.isArray
  replace hlen : cs.length = n := hlen
  replace hlen' : cs'.length = n := hlen'
  refine List.ext_getElem (by omega) fun i h h' => ?_
  obtain ⟨u, hu, _, hup⟩ := hx.element (i := i) (by omega)
  obtain ⟨v, hv, _, hvp⟩ := hy.element (i := i) (by omega)
  obtain rfl : .character cs[i] = u := by simpa [PVS.GroundEval.element, h] using hu
  obtain rfl : .character cs'[i] = v := by simpa [PVS.GroundEval.element, h'] using hv
  exact PvsVal.character.inj (hup.character_eq.symm.trans hvp.character_eq)

theorem Denotes.not_unlike {T : PvsType} {x y : LispVal} {p : PvsVal} (hx : Denotes S D T x p)
    (hy : Denotes S D T y p) : ¬ Unlike x y := by
  intro h
  cases hx with
  | isTrue | isFalse | character | number =>
    cases hy
    exact h rfl
  | nil =>
    cases hy
    exact h rfl
  | cons =>
    cases hy
    exact h.elim
  | @string cs =>
    generalize hq : PvsVal.seq (cs.map .character) = q at hy
    cases hy with
    | @string cs' =>
      have hmap := PvsVal.seq.inj hq
      exact h (List.map_injective_iff.2 (fun _ _ => PvsVal.character.inj) hmap)
  | tuple hxs =>
    cases hy with
    | tuple hys => exact h (by omega)
  | @array T _ ps hx hsome hp =>
    have hx' := Denotes.array hx hsome hp (D := D)
    obtain ⟨hy', -⟩ := hy.isArray
    cases x with
    | array xs =>
      cases y with
      | array ys => exact h (Eq.trans hx (Eq.symm hy'))
      | string cs => exact h (Eq.trans hx (Eq.symm hy'))
      | _ => exact h
    | string cs =>
      cases y with
      | string cs' => exact h (hx'.string_eq hy)
      | _ => exact h
    | arrayClosure size closure =>
      cases y with
      | arrayClosure size' closure' => exact h (Eq.trans hx (Eq.symm hy'))
      | _ => exact h
    | outerArray | function => exact h
    | closureHash =>
      cases y with
      | «structure» => exact hy'
      | _ => exact h
    | _ => exact hx
  | datatype hcls =>
    cases hy
    exact h rfl

theorem Part.not_function {closure closure' : ℕ} {u v : LispVal} :
    ¬ Part S (.function closure) (.function closure') u v := by
  intro h
  generalize hx : LispVal.function closure = x at h
  generalize hy : LispVal.function closure' = y at h
  induction h generalizing closure closure' with
  | flipped _ ih => exact ih hy rfl
  | _ => cases hx

/-- A value is compared with itself component by component. -/
theorem Part.same {T : PvsType} {x u v : LispVal} {p : PvsVal} (h : Part S x x u v)
    (hx : Denotes S D T x p) : u = v := by
  cases h with
  | car | cdr => rfl
  | slot hu hv | element hu hv | version hu hv | closure _ _ hu hv =>
    exact Option.some.inj (hu.symm.trans hv)
  | entry hu hv => exact Option.some.inj ((gethash_of_mem hx.nodup hu).symm.trans hv)
  | flipped h => exact absurd h Part.not_function

/-- A value is compared with itself in the same forms. -/
theorem SameForms.refl {T : PvsType} {x : LispVal} {p : PvsVal} (hx : Denotes S D T x p) :
    SameForms S x x := by
  intro u v h
  suffices hsame : u = v ∧ ∃ T p, Denotes S D T u p by
    obtain ⟨rfl, T, p, hu⟩ := hsame
    cases u with
    | closureHash hash closure =>
      refine ⟨rfl, fun entry hentry => ?_⟩
      rw [gethash_of_mem hu.nodup hentry]
      rfl
    | string cs => exact ⟨_, rfl⟩
    | arrayClosure size closure => exact ⟨_, _, rfl⟩
    | _ => trivial
  generalize hw : (u, v) = w at h
  induction h generalizing u v with
  | refl =>
    cases hw
    exact ⟨rfl, T, p, hx⟩
  | @tail whole _ _ hpart ih =>
    cases hw
    obtain ⟨x', y'⟩ := whole
    obtain ⟨rfl, T', p', hu⟩ := ih _ _ rfl
    obtain ⟨T', p', q', hp, -, -⟩ := hpart.common hu hu
    exact ⟨hpart.same hu, T', p', hp⟩

theorem SameForms.of_parts {x y : LispVal} (hform : SameForm x y)
    (h : ∀ u v, Part S x y u v → SameForms S u v) : SameForms S x y := by
  intro u v huv
  obtain heq | ⟨⟨a, b⟩, hpart, hrest⟩ := Relation.ReflTransGen.cases_head huv
  · cases heq
    exact hform
  · exact h a b hpart u v hrest

theorem SameForms.part {x y u v : LispVal} (h : SameForms S x y) (hpart : Part S x y u v) :
    SameForms S u v := fun a b hab => h a b (.head hpart hab)

/-- Two that are found equal represent the same value, and are compared in the same forms. -/
theorem Denotes.of_true {fuel : ℕ} {T : PvsType} {x y : LispVal} {p q : PvsVal}
    (hx : Denotes S D T x p) (hy : Denotes S D T y q) (h : pvsEqualp S fuel x y = some true) :
    p = q ∧ SameForms S x y := by
  induction fuel using Nat.strong_induction_on generalizing T x y p q with
  | _ fuel ih =>
    cases pvsEqualp_cases h with
    | same heq =>
      subst heq
      exact ⟨hx.functional hy, .refl hx⟩
    | equal hform halike hparts =>
      refine ⟨hx.ext hy hform halike fun u v huv T' p' q' hu hv => ?_,
        .of_parts hform fun u v huv => ?_⟩
      · obtain rfl | ⟨fuel', hfuel, h⟩ := hparts u v huv
        · exact hu.functional hv
        · exact (ih fuel' hfuel hu hv h).1
      · obtain ⟨T', p', q', hu, hv, -⟩ := huv.common hx hy
        obtain rfl | ⟨fuel', hfuel, h⟩ := hparts u v huv
        · exact .refl hu
        · exact (ih fuel' hfuel hu hv h).2

/-- Two that are found different, but represent the same value, are compared in different forms. -/
theorem Denotes.of_false {fuel : ℕ} {T : PvsType} {x y : LispVal} {p : PvsVal}
    (hx : Denotes S D T x p) (hy : Denotes S D T y p) (h : pvsEqualp S fuel x y = some false) :
    ¬ SameForms S x y := by
  induction fuel using Nat.strong_induction_on generalizing T x y p with
  | _ fuel ih =>
    intro hforms
    cases pvsEqualp_cases h with
    | form hform => exact hform (hforms x y .refl)
    | unlike hunlike => exact hx.not_unlike hy hunlike
    | differ u v huv fuel' hfuel h =>
      obtain ⟨T', p', q', hu, hv, heq⟩ := huv.common hx hy
      obtain rfl := heq rfl
      exact ih fuel' hfuel hu hv h (hforms.part huv)

/-- The function answers as the values do if and only if equal values are in the same forms. -/
theorem pvsEqualp_extensional_iff {fuel : ℕ} {T : PvsType} {x y : LispVal} {p q : PvsVal}
    {b : Bool} (hx : Denotes S D T x p) (hy : Denotes S D T y q)
    (h : pvsEqualp S fuel x y = some b) : (b = true ↔ p = q) ↔ (p = q → SameForms S x y) := by
  cases b with
  | true =>
    obtain ⟨heq, hforms⟩ := hx.of_true hy h
    simp [heq, hforms]
  | false =>
    constructor
    · intro hiff heq
      simpa using hiff.2 heq
    · intro hforms
      refine ⟨nofun, fun heq => ?_⟩
      subst heq
      exact absurd (hforms rfl) (hx.of_false hy h)

/-- The state where only symbols are the same objects -/
def symbolState : LispState where
  call _ _ := none
  eq x y :=
    match x, y with
    | .symbol name, .symbol name' => name = name'
    | _, _ => false
  eqHash _ _ := false
  eq_of_eq {x y} h := by
    cases x <;> cases y <;> simp_all
  eq_of_eqHash h := nomatch h
  eq_symbol name := by simp

theorem denotes_single {c : Char} {x : LispVal} (hx : IsArray 1 x)
    (h : element symbolState x 0 = some (.character c)) :
    Denotes symbolState D (.array 1 .character) x (.seq [.character c]) := by
  refine @Denotes.array symbolState D .character x [.character c] hx (fun i hi => ?_)
    fun i u p hu hp => ?_
  · obtain rfl : i = 0 := by simpa using hi
    rw [h]
    rfl
  · obtain ⟨hi, rfl⟩ := List.getElem?_eq_some_iff.1 hp
    obtain rfl : i = 0 := by simpa using hi
    obtain rfl := Option.some.inj (h.symm.trans hu)
    exact .character

theorem pvsEqualp_vector_string : (true = true ↔ PvsVal.seq [.character 'a'] =
    .seq [.character 'a']) ↔ (PvsVal.seq [.character 'a'] = .seq [.character 'a'] →
      SameForms symbolState (.array [.character 'a']) (.string ['a'])) :=
  pvsEqualp_extensional_iff (D := fun _ _ => none) (denotes_single rfl rfl)
    (denotes_single rfl rfl) (show pvsEqualp symbolState 2 _ _ = some true from rfl)

/-- A string is not found equal to the vector of its characters, which is found equal to it. -/
theorem string_not_extensional : ¬ ∀ (S : LispState) (D : Datatypes) (fuel : ℕ) (T : PvsType)
    (x y : LispVal) (p q : PvsVal) (b : Bool), Denotes S D T x p → Denotes S D T y q →
      pvsEqualp S fuel x y = some b → (b = true ↔ p = q) := by
  intro h
  have hstring := h symbolState (fun _ _ => none) 1 _ (.string ['a']) (.array [.character 'a']) _ _
    false (denotes_single rfl rfl) (denotes_single rfl rfl) rfl
  simp at hstring

end PVS.GroundEval
