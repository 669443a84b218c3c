import PVS.GroundEval.PvsEqualp

/-! How a call of the equality of the evaluator comes to its answer -/

namespace PVS.GroundEval

variable {S : LispState}

/-! ### Loops -/

theorem pvsFuncall_eq {x v : LispVal} {i : ℕ} (h : pvsFuncall S x i = some v) :
    element S x i = some v := by
  cases x <;> simp_all [pvsFuncall]

theorem allEqual_true {equalp : LispVal → LispVal → Option Bool} {y : ℕ → Option LispVal}
    {xs : List LispVal} {i j : ℕ} {u : LispVal} (h : allEqual equalp y i xs = some true)
    (hu : xs[j]? = some u) : ∃ v, y (i + j) = some v ∧ equalp u v = some true := by
  induction xs generalizing i j with
  | nil => simp at hu
  | cons x xs ih =>
    simp only [allEqual, Option.bind_eq_bind, Option.bind_eq_some_iff] at h
    obtain ⟨v, hv, b, hb, h⟩ := h
    cases b with
    | false => simp at h
    | true =>
      cases j with
      | zero =>
        obtain rfl : x = u := by simpa using hu
        exact ⟨v, hv, hb⟩
      | succ j =>
        obtain ⟨w, hw, hw'⟩ := ih (by simpa using h) (by simpa using hu)
        exact ⟨w, by rwa [show i + (j + 1) = i + 1 + j by omega], hw'⟩

theorem allEqual_false {equalp : LispVal → LispVal → Option Bool} {y : ℕ → Option LispVal}
    {xs : List LispVal} {i : ℕ} (h : allEqual equalp y i xs = some false) :
    ∃ j u v, xs[j]? = some u ∧ y (i + j) = some v ∧ equalp u v = some false := by
  induction xs generalizing i with
  | nil => simp [allEqual] at h
  | cons x xs ih =>
    simp only [allEqual, Option.bind_eq_bind, Option.bind_eq_some_iff] at h
    obtain ⟨v, hv, b, hb, h⟩ := h
    cases b with
    | false => exact ⟨0, x, v, rfl, hv, hb⟩
    | true =>
      obtain ⟨j, u, w, hu, hw, hw'⟩ := ih (by simpa using h)
      exact ⟨j + 1, u, w, hu, by rwa [show i + (j + 1) = i + 1 + j by omega], hw'⟩

theorem entriesEqual_true {equalp : LispVal → LispVal → Option Bool}
    {hash entries : List (ℕ × LispVal)} {k : ℕ} {u : LispVal}
    (h : entriesEqual equalp hash entries = some true) (hu : (k, u) ∈ entries) :
    ∃ v, gethash k hash = some v ∧ equalp u v = some true := by
  induction entries with
  | nil => simp at hu
  | cons entry entries ih =>
    obtain ⟨l, x⟩ := entry
    simp only [entriesEqual] at h
    split at h
    · simp at h
    · rename_i v hv
      simp only [Option.bind_eq_bind, Option.bind_eq_some_iff] at h
      obtain ⟨b, hb, h⟩ := h
      cases b with
      | false => simp at h
      | true =>
        rcases List.mem_cons.1 hu with hu | hu
        · cases hu
          exact ⟨v, hv, hb⟩
        · exact ih (by simpa using h) hu

theorem entriesEqual_false {equalp : LispVal → LispVal → Option Bool}
    {hash entries : List (ℕ × LispVal)} (h : entriesEqual equalp hash entries = some false) :
    ∃ k u, (k, u) ∈ entries ∧
      ∀ v, gethash k hash = some v → equalp u v = some false := by
  induction entries with
  | nil => simp [entriesEqual] at h
  | cons entry entries ih =>
    obtain ⟨l, x⟩ := entry
    simp only [entriesEqual] at h
    split at h
    · rename_i hl
      exact ⟨l, x, by simp, by simp [hl]⟩
    · rename_i v hv
      simp only [Option.bind_eq_bind, Option.bind_eq_some_iff] at h
      obtain ⟨b, hb, h⟩ := h
      cases b with
      | false =>
        refine ⟨l, x, by simp, fun w hw => ?_⟩
        rwa [← Option.some.inj (hv.symm.trans hw)]
      | true =>
        obtain ⟨k, u, hu, hv⟩ := ih (by simpa using h)
        exact ⟨k, u, List.mem_cons_of_mem _ hu, hv⟩

/-! ### What a call compares -/

/-- The function goes on with the components of the two. -/
def Alike : LispVal → LispVal → Prop
  | .symbol name, .symbol name' => name = name'
  | .character c, .character c' => c = c'
  | .string cs, .string cs' => cs = cs'
  | .number q, .number q' => q = q'
  | .cons .., .cons .. => True
  | .arrayClosure size _, .arrayClosure size' _ => size = size'
  | .array xs, .array ys => xs.length = ys.length
  | .array _, _ | .outerArray _, _ => True
  | .closureHash _ closure, .closureHash _ closure' => closure = closure'
  | .function _, .array _ | .function _, .outerArray _ => True
  | .structure cls _, .structure cls' _ => cls = cls'
  | _, _ => False

/-- The function has found a difference before it goes on with the components. -/
def Unlike : LispVal → LispVal → Prop
  | .symbol name, .symbol name' => name ≠ name'
  | .character c, y => y ≠ .character c
  | .string cs, .string cs' => cs ≠ cs'
  | .number q, y => y ≠ .number q
  | .cons .., .cons .. => False
  | .cons .., _ => True
  | .array xs, .array ys => xs.length ≠ ys.length
  | .array xs, .string cs => xs.length ≠ cs.length
  | .arrayClosure size _, .arrayClosure size' _ => size ≠ size'
  | .structure cls _, .structure cls' _ => cls ≠ cls'
  | .structure .., _ | .closureHash .., .structure .. => True
  | _, _ => False

theorem mkFunArray_some {closure size : ℕ} {elements : List LispVal}
    (h : mkFunArray S closure size = some elements) :
    elements.length = size ∧ ∀ i < size, elements[i]? = S.call closure i := by
  induction size generalizing elements with
  | zero =>
    obtain rfl : [] = elements := by simpa [mkFunArray] using h
    exact ⟨rfl, fun i hi => absurd hi (by omega)⟩
  | succ size ih =>
    simp only [mkFunArray, List.range_succ, List.mapM_append, Option.bind_eq_bind,
      Option.bind_eq_some_iff] at h
    obtain ⟨front, hfront, last, hlast, h⟩ := h
    obtain ⟨u, hu, rfl⟩ : ∃ u, S.call closure size = some u ∧ [u] = last := by
      simpa [Option.bind_eq_some_iff] using hlast
    obtain rfl := Option.some.inj h
    obtain ⟨hlen, hcall⟩ := ih hfront
    refine ⟨by simp [hlen], fun i hi => ?_⟩
    rcases Nat.lt_or_ge i size with hlt | hge
    · rw [List.getElem?_append_left (by omega), hcall i hlt]
    · obtain rfl : i = size := by omega
      rw [List.getElem?_append_right (by omega), hu]
      simp [hlen]

/-- How a call has come to its answer -/
inductive Compared (S : LispState) (fuel : ℕ) (x y : LispVal) : Bool → Prop
  | same (h : x = y) : Compared S fuel x y true
  | form (h : ¬ SameForm x y) : Compared S fuel x y false
  | unlike (h : Unlike x y) : Compared S fuel x y false
  | equal (hform : SameForm x y) (halike : Alike x y) (h : ∀ u v, Part S x y u v →
      u = v ∨ ∃ fuel' < fuel, pvsEqualp S fuel' u v = some true) : Compared S fuel x y true
  | differ (u v : LispVal) (hpart : Part S x y u v) (fuel' : ℕ) (hfuel : fuel' < fuel)
    (h : pvsEqualp S fuel' u v = some false) : Compared S fuel x y false

theorem part_array {xs : List LispVal} {y u v : LispVal} :
    Part S (.array xs) y u v ↔ ∃ i, xs[i]? = some u ∧ element S y i = some v := by
  constructor
  · intro h
    cases h with
    | element hu hv => exact ⟨_, hu, hv⟩
  · rintro ⟨i, hu, hv⟩
    exact .element hu hv

theorem part_outerArray {xs : List LispVal} {y u v : LispVal} :
    Part S (.outerArray xs) y u v ↔ ∃ i, xs[i]? = some u ∧ element S y i = some v := by
  constructor
  · intro h
    cases h with
    | version hu hv => exact ⟨_, hu, hv⟩
  · rintro ⟨i, hu, hv⟩
    exact .version hu hv

theorem Compared.loop {fuel : ℕ} {x y : LispVal} {f g : ℕ → Option LispVal} {xs : List LispVal}
    {b : Bool} (hform : SameForm x y) (halike : Alike x y)
    (hpart : ∀ u v, Part S x y u v ↔ ∃ i, xs[i]? = some u ∧ g i = some v)
    (hf : ∀ i v, f i = some v → g i = some v)
    (h : allEqual (pvsEqualp S fuel) f 0 xs = some b) : Compared S (fuel + 1) x y b := by
  cases b with
  | true =>
    refine .equal hform halike fun u v huv => .inr ?_
    obtain ⟨i, hu, hv⟩ := (hpart u v).1 huv
    obtain ⟨w, hw, heq⟩ := allEqual_true h hu
    obtain rfl := Option.some.inj (hv.symm.trans (hf _ _ (by simpa using hw)))
    exact ⟨fuel, Nat.lt_succ_self fuel, heq⟩
  | false =>
    obtain ⟨i, u, v, hu, hv, hdiff⟩ := allEqual_false h
    have huv : Part S x y u v := (hpart u v).2 ⟨i, hu, hf _ _ (by simpa using hv)⟩
    exact .differ u v huv fuel (Nat.lt_succ_self fuel) hdiff

theorem pvsEqualp_cons {fuel : ℕ} {car cdr car' cdr' : LispVal} {b : Bool}
    (h : (do if ← pvsEqualp S fuel car car' then pvsEqualp S fuel cdr cdr' else some false) =
      some b) : Compared S (fuel + 1) (.cons car cdr) (.cons car' cdr') b := by
  simp only [Option.bind_eq_bind, Option.bind_eq_some_iff] at h
  obtain ⟨c, hcar, h⟩ := h
  cases c with
  | false =>
    obtain rfl : false = b := by simpa using h
    exact .differ _ _ .car fuel (Nat.lt_succ_self fuel) hcar
  | true =>
    have hcdr : pvsEqualp S fuel cdr cdr' = some b := by simpa using h
    cases b with
    | false => exact .differ _ _ .cdr fuel (Nat.lt_succ_self fuel) hcdr
    | true =>
      refine .equal trivial trivial fun u v huv => .inr ?_
      cases huv with
      | car => exact ⟨fuel, Nat.lt_succ_self fuel, hcar⟩
      | cdr => exact ⟨fuel, Nat.lt_succ_self fuel, hcdr⟩

theorem pvsEqualp_closureHash {fuel : ℕ} {hash hash' : List (ℕ × LispVal)} {closure closure' : ℕ}
    {b : Bool} (h : (do if ← hashEqual S (pvsEqualp S fuel) hash hash' then
      (if closure = closure' then some true else none) else some false) = some b) :
    Compared S (fuel + 1) (.closureHash hash closure) (.closureHash hash' closure') b := by
  simp only [Option.bind_eq_bind, Option.bind_eq_some_iff] at h
  obtain ⟨c, hhash, h⟩ := h
  cases c with
  | false =>
    obtain rfl : false = b := by simpa using h
    simp only [hashEqual] at hhash
    split at hhash
    · simp at hhash
    · split at hhash
      · rename_i hlen
        exact .form fun hform => hlen hform.1
      · obtain ⟨k, u, hu, hv⟩ := entriesEqual_false hhash
        by_cases hform : SameForm (.closureHash hash closure) (.closureHash hash' closure')
        · obtain ⟨v, hk⟩ := Option.isSome_iff_exists.1 (hform.2 _ hu)
          exact .differ u v (.entry hu hk) fuel (Nat.lt_succ_self fuel) (hv v hk)
        · exact .form hform
  | true =>
    obtain ⟨rfl, rfl⟩ : closure = closure' ∧ true = b := by simpa using h
    simp only [hashEqual] at hhash
    split at hhash
    · rename_i heq
      obtain rfl := S.eq_of_eqHash heq
      exact .same rfl
    · split at hhash
      · simp at hhash
      · rename_i hlen
        refine .equal ⟨not_not.1 hlen, fun entry hentry => ?_⟩ rfl fun u v huv => .inr ?_
        · obtain ⟨v, hv, -⟩ := entriesEqual_true hhash hentry
          simp [hv]
        · cases huv with
          | entry hu hv =>
            obtain ⟨w, hw, heq⟩ := entriesEqual_true hhash hu
            obtain rfl := Option.some.inj (hv.symm.trans hw)
            exact ⟨fuel, Nat.lt_succ_self fuel, heq⟩

theorem Compared.flip {fuel closure : ℕ} {y : LispVal} {b : Bool}
    (h : Compared S fuel y (.function closure) b) (hform : SameForm (.function closure) y)
    (halike : Alike (.function closure) y) (hne : y ≠ .function closure)
    (hunlike : ¬ Unlike y (.function closure)) (hy : SameForm y (.function closure)) :
    Compared S (fuel + 1) (.function closure) y b := by
  cases h with
  | same h => exact absurd h hne
  | form h => exact absurd hy h
  | unlike h => exact absurd h hunlike
  | equal _ _ h =>
    refine .equal hform halike fun u v huv => ?_
    cases huv with
    | flipped huv =>
      obtain h | ⟨fuel', hfuel, h⟩ := h u v huv
      · exact .inl h
      · exact .inr ⟨fuel', by omega, h⟩
  | differ u v huv fuel' hfuel h => exact .differ u v (.flipped huv) fuel' (by omega) h

theorem Compared.arrayClosure {fuel size closure size' closure' : ℕ} {xs ys : List LispVal}
    {b : Bool} (hxs : mkFunArray S closure size = some xs)
    (hys : mkFunArray S closure' size' = some ys)
    (h : Compared S fuel (.array xs) (.array ys) b) :
    Compared S (fuel + 1) (.arrayClosure size closure) (.arrayClosure size' closure') b := by
  obtain ⟨hlen, hcall⟩ := mkFunArray_some hxs
  obtain ⟨hlen', hcall'⟩ := mkFunArray_some hys
  cases h with
  | same h =>
    obtain rfl := LispVal.array.inj h
    refine .equal ⟨_, _, rfl⟩ (hlen.symm.trans hlen') fun u v huv => .inl ?_
    cases huv with
    | closure hi hi' hu hv =>
      rw [← hcall _ hi] at hu
      rw [← hcall' _ hi'] at hv
      exact Option.some.inj (hu.symm.trans hv)
  | form h => exact absurd trivial h
  | unlike h =>
    refine .unlike fun hsize => h ?_
    rw [hlen, hlen', hsize]
  | equal _ halike h =>
    refine .equal ⟨_, _, rfl⟩ (hlen.symm.trans (Eq.trans halike hlen')) fun u v huv => ?_
    cases huv with
    | closure hi hi' hu hv =>
      rw [← hcall _ hi] at hu
      rw [← hcall' _ hi'] at hv
      obtain h | ⟨fuel', hfuel, h⟩ := h u v (.element hu hv)
      · exact .inl h
      · exact .inr ⟨fuel', by omega, h⟩
  | differ u v huv fuel' hfuel h =>
    obtain ⟨i, hu, hv⟩ := part_array.1 huv
    have hi := (List.getElem?_eq_some_iff.1 hu).1
    have hi' := (List.getElem?_eq_some_iff.1 hv).1
    refine .differ u v (.closure (i := i) (by omega) (by omega) ?_ ?_) fuel' (by omega) h
    · rw [← hcall i (by omega), hu]
    · rw [← hcall' i (by omega)]
      exact hv

theorem pvsEqualp_structure {fuel : ℕ} {cls cls' : String} {xs ys : List LispVal} {b : Bool}
    (h : (if cls = cls' then allEqual (pvsEqualp S fuel) (element S (.array ys)) 0 xs
      else some false) = some b) :
    Compared S (fuel + 1) (.structure cls xs) (.structure cls' ys) b := by
  split at h
  · rename_i hcls
    obtain rfl := hcls
    refine .loop trivial rfl (fun u v => ⟨fun huv => ?_, ?_⟩) (fun _ _ => id) h
    · cases huv with
      | slot hu hv => exact ⟨_, hu, hv⟩
    · rintro ⟨i, hu, hv⟩
      exact .slot hu hv
  · rename_i hcls
    obtain rfl := Option.some.inj h
    exact .unlike hcls

theorem Compared.leaf {fuel : ℕ} {x y : LispVal} {b : Bool} {P : Prop} [Decidable P]
    (h : some (decide P) = some b) (hform : SameForm x y) (hpart : ∀ u v, ¬ Part S x y u v)
    (halike : P → Alike x y) (hunlike : ¬ P → Unlike x y) : Compared S fuel x y b := by
  obtain rfl := Option.some.inj h
  by_cases hP : P
  · simpa [hP] using Compared.equal hform (halike hP) fun u v huv => absurd huv (hpart u v)
  · simpa only [hP, decide_false] using Compared.unlike (hunlike hP)

theorem pvsEqualp_cases {fuel : ℕ} {x y : LispVal} {b : Bool}
    (h : pvsEqualp S fuel x y = some b) : Compared S fuel x y b := by
  induction fuel generalizing x y b with
  | zero => simp [pvsEqualp] at h
  | succ fuel ih =>
    rw [pvsEqualp.eq_def] at h
    simp only at h
    split at h
    · rename_i heq
      obtain rfl := Option.some.inj h
      exact .same (S.eq_of_eq heq)
    rename_i hne
    cases x with
    | symbol name =>
      cases y with
      | symbol name' =>
        obtain rfl := Option.some.inj h
        refine .unlike fun heq => hne ?_
        rw [heq, S.eq_symbol]
      | _ => simp at h
    | character c =>
      cases y with
      | character c' =>
        refine .leaf h trivial (fun u v huv => nomatch huv) id fun hc heq => hc ?_
        exact (LispVal.character.inj heq).symm
      | _ =>
        obtain rfl := Option.some.inj h
        exact .unlike nofun
    | string cs =>
      cases y with
      | string cs' => exact .leaf h ⟨_, rfl⟩ (fun u v huv => nomatch huv) id id
      | _ =>
        obtain rfl := Option.some.inj h
        exact .form nofun
    | number q =>
      cases y with
      | number q' =>
        refine .leaf h trivial (fun u v huv => nomatch huv) id fun hq heq => hq ?_
        exact (LispVal.number.inj heq).symm
      | _ =>
        obtain rfl := Option.some.inj h
        exact .unlike nofun
    | cons car cdr =>
      cases y with
      | cons car' cdr' => exact pvsEqualp_cons h
      | _ =>
        obtain rfl := Option.some.inj h
        exact .unlike trivial
    | array xs =>
      cases y with
      | array ys =>
        simp only at h
        split at h
        · rename_i hlen
          exact .loop trivial hlen (fun _ _ => part_array) (fun _ _ => id) h
        · rename_i hlen
          obtain rfl := Option.some.inj h
          exact .unlike hlen
      | string cs =>
        simp only at h
        split at h
        · exact .loop trivial trivial (fun _ _ => part_array) (fun _ _ => id) h
        · rename_i hlen
          obtain rfl := Option.some.inj h
          exact .unlike hlen
      | outerArray | closureHash | function =>
        exact .loop trivial trivial (fun _ _ => part_array) (fun _ _ => pvsFuncall_eq) h
      | _ => simp at h
    | arrayClosure size closure =>
      cases y with
      | arrayClosure size' closure' =>
        simp only [Option.bind_eq_bind, Option.bind_eq_some_iff] at h
        obtain ⟨xs, hxs, ys, hys, h⟩ := h
        exact .arrayClosure hxs hys (ih h)
      | _ =>
        obtain rfl := Option.some.inj h
        exact .form nofun
    | outerArray xs =>
      cases y with
      | array | string | outerArray | closureHash | function =>
        exact .loop trivial trivial (fun _ _ => part_outerArray) (fun _ _ => pvsFuncall_eq) h
      | _ => simp at h
    | closureHash hash closure =>
      cases y with
      | closureHash hash' closure' => exact pvsEqualp_closureHash h
      | outerArray | arrayClosure =>
        obtain rfl := Option.some.inj h
        exact .form id
      | «structure» =>
        obtain rfl := Option.some.inj h
        exact .unlike trivial
      | _ => simp at h
    | function closure =>
      cases y with
      | array | outerArray => exact (ih h).flip trivial trivial nofun id trivial
      | string cs =>
        cases ih h with
        | form => exact .form id
        | equal hform => exact nomatch hform
        | differ _ _ huv => cases huv
        | unlike hunlike => exact hunlike.elim
        | same heq => cases heq
      | closureHash hash closure' =>
        cases ih h with
        | form hform => exact absurd trivial hform
        | equal _ halike => exact halike.elim
        | differ _ _ huv => cases huv
        | unlike hunlike => exact hunlike.elim
        | same heq => cases heq
      | _ => simp at h
    | «structure» cls xs =>
      cases y with
      | «structure» cls' ys => exact pvsEqualp_structure h
      | outerArray | arrayClosure | closureHash =>
        obtain rfl := Option.some.inj h
        exact .unlike trivial
      | _ => simp at h

end PVS.GroundEval
