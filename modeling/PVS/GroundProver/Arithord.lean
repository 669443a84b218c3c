import Mathlib.Data.Sum.Order
import PVS.GroundProver.Bounds
import PVS.Library.WrappedOrder

/-! The order of `arith.lisp` on terms, and the terms it leaves incomparable. -/

namespace PVS.GroundProver

open SExp Library

/-! ### Terms -/

/-- The products and the reciprocals, which are compared through a representative. -/
inductive ArithKind
  | times
  | divide
  deriving DecidableEq

def ArithKind.symbol : ArithKind → SExp
  | times => .sym "TIMES"
  | divide => .sym "DIVIDE"

def arithKind (u : SExp) : Option ArithKind :=
  if u.car = .sym "TIMES" then some .times
  else if u.car = .sym "DIVIDE" then some .divide
  else none

def arithRep (u : SExp) : SExp :=
  if u.car = .sym "TIMES" then timesArithordRep u else divArithordRep u

/-- Numbers are normalized, and the representative of a product or a reciprocal is a term and no
number. -/
def Proper : SExp → Prop
  | .cons a d =>
    Proper a ∧ Proper d ∧ (a = .sym "QUO" → ∃ q : ℚ, SExp.cons a d = qrep q) ∧
      ((arithKind (.cons a d)).isSome →
        qnumberp (arithRep (.cons a d)) = false ∧ arithRep (.cons a d) ≠ nil)
  | _ => True

theorem proper_nil : Proper nil := trivial

theorem Proper.car {u : SExp} (h : Proper u) : Proper u.car := by
  cases u with
  | cons a d => exact h.1
  | _ => exact proper_nil

theorem Proper.cdr {u : SExp} (h : Proper u) : Proper u.cdr := by
  cases u with
  | cons a d => exact h.2.1
  | _ => exact proper_nil

theorem Proper.timesArithordRep {u : SExp} (h : Proper u) : Proper (timesArithordRep u) := by
  unfold GroundProver.timesArithordRep
  split
  · exact h.cdr.cdr.car
  · exact h.cdr.car

theorem Proper.arithordRep {u : SExp} (h : Proper u) : Proper (arithordRep u) := by
  fun_induction GroundProver.arithordRep u with
  | case1 => exact h.timesArithordRep
  | case2 _ _ _ _ ih => exact ih h.timesArithordRep
  | case3 _ _ _ _ _ ih => exact ih h.timesArithordRep
  | case4 => exact h
  | case5 => exact h

theorem Proper.arithRep {u : SExp} (h : Proper u) : Proper (arithRep u) := by
  unfold GroundProver.arithRep
  split
  · exact h.timesArithordRep
  · exact h.timesArithordRep.arithordRep

theorem Proper.arithcdr {u : SExp} (h : Proper u) : Proper (arithcdr u) := by
  unfold GroundProver.arithcdr
  split
  · exact h.cdr.cdr
  · exact h.cdr

theorem consp_of_arithKind {u : SExp} {k : ArithKind} (h : arithKind u = some k) :
    u.consp = true := by
  cases u with
  | cons a d => rfl
  | _ => simp [arithKind, SExp.car, nil] at h

theorem size_arithRep_lt {u : SExp} {k : ArithKind} (h : arithKind u = some k) :
    (arithRep u).size < u.size := by
  unfold arithRep
  split
  · exact size_timesArithordRep_lt (consp_of_arithKind h)
  · exact size_divArithordRep_lt (consp_of_arithKind h)

/-- A term that is compared as it is. -/
inductive Base : SExp → Prop
  | null : Base nil
  | symbol {n : String} : n ≠ "nil" → Base (.sym n)
  | number (q : ℚ) : Base (qrep q)
  | application {a d : SExp} : qnumberp (.cons a d) = false → arithKind (.cons a d) = none →
      Base (.cons a d)

theorem Proper.base {u : SExp} (h : Proper u) (hu : arithKind u = none) : Base u := by
  cases u with
  | sym n =>
    by_cases hn : n = "nil"
    · exact hn ▸ .null
    · exact .symbol hn
  | int i => exact qrep_intCast i ▸ .number i
  | cons a d =>
    by_cases ha : a = .sym "QUO"
    · obtain ⟨q, hq⟩ := h.2.2.1 ha
      exact hq ▸ .number q
    · exact .application (by simpa using ha) hu

/-! ### The comparison, by the shape of the terms -/

theorem exists_of_arithKind {u : SExp} {k : ArithKind} (h : arithKind u = some k) :
    ∃ d, u = .cons k.symbol d := by
  cases u with
  | cons a d =>
    unfold arithKind at h
    split at h
    · rename_i ha
      cases h
      exact ⟨d, congrArg (SExp.cons · d) ha⟩
    · split at h
      · rename_i ha
        cases h
        exact ⟨d, congrArg (SExp.cons · d) ha⟩
      · cases h
  | _ => simp [arithKind, SExp.car, nil] at h

variable {u v : SExp} {k : ArithKind}

theorem arithord_same (hu : arithKind u = some k) (hv : arithKind v = some k) :
    arithord u v = true ↔ arithord (arithRep u) (arithRep v) = true ∨
      arithRep u = arithRep v ∧ arithord (arithcdr u) (arithcdr v) = true := by
  obtain ⟨d, rfl⟩ := exists_of_arithKind hu
  obtain ⟨d', rfl⟩ := exists_of_arithKind hv
  rw [arithord, arithord1]
  cases k with
  | times => simp [arithRep, arithord, symbolp, ArithKind.symbol]
  | divide => simp [arithRep, arithord, symbolp, ArithKind.symbol]

theorem arithord_nil (u : SExp) : arithord nil u = false := by rw [arithord, arithord1, if_pos rfl]

theorem arithord_to_nil (hu : u ≠ nil) : arithord u nil = true := by
  rw [arithord, arithord1, if_neg hu, if_pos rfl]

theorem ne_nil_of_qnumberp (h : qnumberp u = true) : u ≠ nil := by
  rintro rfl
  cases h

theorem symbolp_eq_false_of_qnumberp (h : qnumberp u = true) : u.symbolp = false := by
  cases u with
  | sym n => cases h
  | _ => rfl

theorem arithord_number (hu : qnumberp u = false) (hnil : u ≠ nil) (hv : qnumberp v = true) :
    arithord u v = false := by
  have hv' := ne_nil_of_qnumberp hv
  have hvs := symbolp_eq_false_of_qnumberp hv
  rw [arithord, arithord1]
  simp [hu, hnil, hv, hv', hvs]

theorem number_arithord (hu : qnumberp u = true) (hv : qnumberp v = false) :
    arithord u v = true := by
  have hu' := ne_nil_of_qnumberp hu
  have hus := symbolp_eq_false_of_qnumberp hu
  rw [arithord, arithord1]
  cases u with
  | sym n => cases hu
  | _ => simp_all

theorem arithord_left (hu : arithKind u = some k) (hv : arithKind v ≠ some k)
    (hrep : qnumberp (arithRep u) = false) (hnil : arithRep u ≠ nil) :
    arithord u v = true ↔ arithRep u = v ∨ arithord (arithRep u) v = true := by
  obtain ⟨d, rfl⟩ := exists_of_arithKind hu
  by_cases hn : v = nil
  · rw [hn]
    simp [arithord_to_nil, hnil]
  · cases hvn : qnumberp v with
    | true =>
      have hne : arithRep _ ≠ v := fun he => absurd (he ▸ hvn) (by rw [hrep]; decide)
      rw [arithord_number (by cases k <;> rfl) (by simp) hvn, arithord_number hrep hnil hvn]
      simp [hne]
    | false =>
      cases v with
      | sym n =>
        rw [arithord, arithord1]
        cases k with
        | times => simp [hn, arithRep, arithord, symbolp, ArithKind.symbol]
        | divide => simp [hn, arithRep, arithord, symbolp, ArithKind.symbol]
      | int i => cases hvn
      | cons a' d' =>
        rw [arithord, arithord1]
        cases k with
        | times =>
          have : a' ≠ .sym "TIMES" := by
            rintro rfl
            exact hv rfl
          simp_all [arithRep, arithord, symbolp, ArithKind.symbol]
        | divide =>
          have : a' ≠ .sym "DIVIDE" := by
            rintro rfl
            exact hv rfl
          simp_all [arithRep, arithord, symbolp, ArithKind.symbol]

theorem arithord_symbol (n : String) : arithord (.sym n) (.sym n) = false := by
  rw [arithord, arithord1]
  simp [alphalessp, symbolp]

theorem arithord_right (hu : arithKind u = none) (hv : arithKind v = some k)
    (hrep : qnumberp (arithRep v) = false) :
    arithord u v = true ↔ arithord u (arithRep v) = true := by
  by_cases hn : u = nil
  · rw [hn, arithord_nil, arithord_nil]
  · obtain ⟨d, rfl⟩ := exists_of_arithKind hv
    cases hun : qnumberp u with
    | true => rw [number_arithord hun hrep, number_arithord hun (by cases k <;> rfl)]
    | false =>
      cases u with
      | sym n =>
        have hself : arithord (.sym n) (arithRep (.cons k.symbol d)) = true →
            SExp.sym n ≠ arithRep (.cons k.symbol d) := by
          intro h he
          rw [← he, arithord_symbol] at h
          cases h
        rw [arithord, arithord1]
        cases k with
        | times => simp_all [arithRep, arithord, symbolp, ArithKind.symbol]
        | divide => simp_all [arithRep, arithord, symbolp, ArithKind.symbol]
      | int i => cases hun
      | cons a d' =>
        have h1 : a ≠ .sym "TIMES" := by
          rintro rfl
          cases hu
        have h2 : a ≠ .sym "DIVIDE" := by
          rintro rfl
          cases hu
        rw [arithord, arithord1]
        cases k with
        | times => simp_all [arithRep, arithord, symbolp, ArithKind.symbol]
        | divide => simp_all [arithRep, arithord, symbolp, ArithKind.symbol]

/-! ### Terms that are compared as they are -/

/-- Numbers by their value, then symbols by their name, then applications, then `nil`. -/
abbrev ArithKey : Type := ℚ ⊕ₗ String ⊕ₗ Bool

def arithKey : SExp → ArithKey
  | .sym n => if n = "nil" then toLex (.inr (toLex (.inr true))) else toLex (.inr (toLex (.inl n)))
  | .int i => toLex (.inl i)
  | .cons a d =>
    if qnumberp (.cons a d) then toLex (.inl (qval (.cons a d)))
    else toLex (.inr (toLex (.inr false)))

def arithPair (u : SExp) : Option (SExp × SExp) :=
  match u with
  | .cons a d => if qnumberp u then none else some (a, d)
  | _ => none

theorem qnumberp_qrep (q : ℚ) : qnumberp (qrep q) = true := (qnumber_qrep q).qnumberp

@[simp] theorem arithKey_nil : arithKey nil = toLex (.inr (toLex (.inr true))) := rfl

@[simp] theorem arithKey_qrep (q : ℚ) : arithKey (qrep q) = toLex (.inl q) := by
  have hq := qval_qrep q
  unfold qrep at hq ⊢
  split
  · rename_i h
    rw [if_pos h] at hq
    exact congrArg (fun x => toLex (Sum.inl x)) hq
  · rename_i h
    rw [if_neg h] at hq
    exact congrArg (fun x => toLex (Sum.inl x)) hq

theorem arithKey_symbol {n : String} (hn : n ≠ "nil") :
    arithKey (.sym n) = toLex (.inr (toLex (.inl n))) := by
  rw [arithKey, if_neg hn]

theorem arithKey_application {a d : SExp} (h : qnumberp (.cons a d) = false) :
    arithKey (.cons a d) = toLex (.inr (toLex (.inr false))) := by
  simp only [arithKey, h, Bool.false_eq_true, if_false]

theorem arithPair_qrep (q : ℚ) : arithPair (qrep q) = none := by
  have h := qnumberp_qrep q
  unfold arithPair
  split
  · rw [if_pos (by assumption)]
  · rfl

theorem arithord_qrep (p q : ℚ) : arithord (qrep p) (qrep q) = true ↔ p < q := by
  have hp := ne_nil_of_qnumberp (qnumberp_qrep p)
  have hq := ne_nil_of_qnumberp (qnumberp_qrep q)
  have hps := symbolp_eq_false_of_qnumberp (qnumberp_qrep p)
  have hqs := symbolp_eq_false_of_qnumberp (qnumberp_qrep q)
  rw [arithord, arithord1, if_neg hp, if_neg hq, hps, hqs, qnumberp_qrep, qnumberp_qrep]
  simp only [Bool.false_eq_true, if_false, if_true]
  rw [qlessp_iff (posNumber_qrep p) (posNumber_qrep q), qval_qrep, qval_qrep]

theorem arithord_symbols {n m : String} (hn : n ≠ "nil") (hm : m ≠ "nil") :
    arithord (.sym n) (.sym m) = true ↔ n < m := by
  rw [arithord, arithord1]
  simp [nil, hn, hm, symbolp, alphalessp]

theorem car_ne_of_arithKind {a d : SExp} (h : arithKind (.cons a d) = none) :
    a ≠ .sym "TIMES" ∧ a ≠ .sym "DIVIDE" := by
  constructor <;> rintro rfl <;> cases h

theorem symbol_arithord_application {n : String} {a d : SExp} (hn : n ≠ "nil")
    (h : qnumberp (.cons a d) = false) (hk : arithKind (.cons a d) = none) :
    arithord (.sym n) (.cons a d) = true := by
  obtain ⟨ht, hd⟩ := car_ne_of_arithKind hk
  rw [arithord, arithord1]
  simp_all [nil, symbolp]

theorem application_arithord_symbol {n : String} {a d : SExp} (hn : n ≠ "nil")
    (h : qnumberp (.cons a d) = false) (hk : arithKind (.cons a d) = none) :
    arithord (.cons a d) (.sym n) = false := by
  obtain ⟨ht, hd⟩ := car_ne_of_arithKind hk
  rw [arithord, arithord1]
  simp_all [nil, symbolp]

theorem arithord_applications {a d a' d' : SExp} (h : qnumberp (.cons a d) = false)
    (hk : arithKind (.cons a d) = none) (h' : qnumberp (.cons a' d') = false)
    (hk' : arithKind (.cons a' d') = none) :
    arithord (.cons a d) (.cons a' d') = true ↔
      a ≠ a' ∧ arithord a a' = true ∨ a = a' ∧ arithord d d' = true := by
  obtain ⟨ht, hd⟩ := car_ne_of_arithKind hk
  obtain ⟨ht', hd'⟩ := car_ne_of_arithKind hk'
  rw [arithord, arithord1]
  by_cases ha : a = a'
  · simp_all [symbolp, arithord]
  · simp_all [symbolp, arithord]

theorem arithPair_application {a d : SExp} (h : qnumberp (.cons a d) = false) :
    arithPair (.cons a d) = some (a, d) := by
  simp only [arithPair, h, Bool.false_eq_true, if_false]

theorem arithord_base (hu : Base u) (hv : Base v) :
    arithord u v = true ↔ arithKey u < arithKey v ∨
      ∃ p q, arithPair u = some p ∧ arithPair v = some q ∧
        (p.1 ≠ q.1 ∧ arithord p.1 q.1 = true ∨ p.1 = q.1 ∧ arithord p.2 q.2 = true) := by
  have hpairNil : arithPair nil = none := rfl
  cases hu with
  | null =>
    rw [arithord_nil, hpairNil]
    cases hv with
    | null => simp
    | symbol hn => simp [arithKey_symbol hn]
    | number q => simp
    | application h hk => simp [arithKey_application h]
  | symbol hn =>
    have hsym := arithKey_symbol hn
    have hne : ∀ {n : String}, n ≠ "nil" → SExp.sym n ≠ nil := by simp [nil]
    cases hv with
    | null => simp [arithord_to_nil (hne hn), hsym]
    | symbol hm => simp [arithord_symbols hn hm, hsym, arithKey_symbol hm, arithPair]
    | number q =>
      simp [arithord_number (qnumberp_sym _) (hne hn) (qnumberp_qrep q), hsym,
        arithPair]
    | application h hk =>
      simp [symbol_arithord_application hn h hk, hsym, arithKey_application h]
  | number p =>
    have hp := qnumberp_qrep p
    cases hv with
    | null => simp [arithord_to_nil (ne_nil_of_qnumberp hp)]
    | symbol hm => simp [number_arithord hp (qnumberp_sym _), arithKey_symbol hm]
    | number q => simp [arithord_qrep, arithPair_qrep]
    | application h hk => simp [number_arithord hp h, arithKey_application h]
  | application h hk =>
    have happ := arithKey_application h
    cases hv with
    | null => simp [arithord_to_nil, happ]
    | symbol hm =>
      simp [application_arithord_symbol hm h hk, happ, arithKey_symbol hm, arithPair]
    | number q =>
      simp [arithord_number h (by simp) (qnumberp_qrep q), happ, arithPair_qrep]
    | application h' hk' =>
      rw [arithord_applications h hk h' hk', happ, arithKey_application h', arithPair_application h,
        arithPair_application h']
      simp

/-! ### The order -/

/-- Terms that are proper. -/
abbrev ProperTerm : Type := {u : SExp // Proper u}

theorem Proper.rep {k : ArithKind} (h : Proper u) (hk : arithKind u = some k) :
    qnumberp (GroundProver.arithRep u) = false ∧ GroundProver.arithRep u ≠ nil := by
  obtain ⟨d, rfl⟩ := exists_of_arithKind hk
  exact h.2.2.2 (by rw [hk]; rfl)

/-- The components of an application. -/
def properPair (u : ProperTerm) : Option (ProperTerm × ProperTerm) :=
  (arithPair u.1).map fun _ => (⟨u.1.car, u.2.car⟩, ⟨u.1.cdr, u.2.cdr⟩)

theorem map_properPair (u : ProperTerm) :
    (properPair u).map (fun p => (p.1.1, p.2.1)) = arithPair u.1 := by
  obtain ⟨u, hu⟩ := u
  cases u with
  | cons a d =>
    simp only [properPair, arithPair]
    split <;> rfl
  | _ => rfl

theorem eq_of_arithPair {x : SExp × SExp} (h : arithPair u = some x) :
    u = .cons x.1 x.2 ∧ qnumberp u = false := by
  cases u with
  | cons a d =>
    simp only [arithPair] at h
    split at h
    · cases h
    · cases h
      exact ⟨rfl, Bool.eq_false_of_not_eq_true ‹_›⟩
  | _ => cases h

theorem eq_of_properPair {u : ProperTerm} {p : ProperTerm × ProperTerm}
    (h : properPair u = some p) :
    u.1 = .cons p.1.1 p.2.1 ∧ qnumberp u.1 = false :=
  eq_of_arithPair (by rw [← map_properPair, h]; rfl)

/-- Equal keys are those of the same number or symbol, or of applications. -/
theorem eq_or_arithPair (hu : Base u) (hv : Base v) (h : arithKey u = arithKey v) :
    u = v ∨ (arithPair u).isSome ∧ (arithPair v).isSome := by
  cases hu with
  | null =>
    cases hv with
    | application ha => simp [arithKey_application ha] at h
    | _ => simp_all [arithKey_symbol]
  | symbol hn =>
    rw [arithKey_symbol hn] at h
    cases hv with
    | application ha => simp [arithKey_application ha] at h
    | _ => simp_all [arithKey_symbol]
  | number p =>
    cases hv with
    | application ha => simp [arithKey_application ha] at h
    | _ => simp_all [arithKey_symbol]
  | application ha hk =>
    rw [arithKey_application ha] at h
    cases hv with
    | application ha' => exact .inr ⟨by rw [arithPair_application ha]; rfl,
        by rw [arithPair_application ha']; rfl⟩
    | _ => simp_all [arithKey_symbol]

def arithOrder : WrappedOrder ProperTerm ArithKind ArithKey where
  lt u v := arithord u.1 v.1 = true
  size u := u.1.size
  kind u := arithKind u.1
  rep u := ⟨arithRep u.1, u.2.arithRep⟩
  rest u := ⟨arithcdr u.1, u.2.arithcdr⟩
  key u := arithKey u.1
  pair := properPair
  size_rep_lt h := size_arithRep_lt h
  size_rest_lt h := size_arithcdr_lt (consp_of_arithKind h)
  size_pair_lt {u p} h := by
    rw [(eq_of_properPair h).1, size_cons]
    omega
  lt_same hu hv := by
    rw [arithord_same hu hv, Subtype.mk.injEq]
  lt_left {u v k} hu hv := by
    obtain ⟨hrep, hnil⟩ := u.2.rep hu
    rw [arithord_left hu hv hrep hnil, Subtype.ext_iff]
  lt_right {u v k} hu hv := arithord_right hu hv (v.2.rep hv).1
  lt_base {u v} hu hv := by
    rw [arithord_base (u.2.base hu) (v.2.base hv), ← map_properPair u, ← map_properPair v]
    simp only [Option.map_eq_some_iff, ne_eq, Subtype.ext_iff]
    constructor
    · rintro (h | ⟨_, _, ⟨p, hp, rfl⟩, ⟨q, hq, rfl⟩, h⟩)
      · exact .inl h
      · exact .inr ⟨p, q, hp, hq, h⟩
    · rintro (h | ⟨p, q, hp, hq, h⟩)
      · exact .inl h
      · exact .inr ⟨_, _, ⟨p, hp, rfl⟩, ⟨q, hq, rfl⟩, h⟩
  key_eq_of_pair {u v p q} hp hq := by
    obtain ⟨hu, hun⟩ := eq_of_properPair hp
    obtain ⟨hv, hvn⟩ := eq_of_properPair hq
    rw [hu] at hun ⊢
    rw [hv] at hvn ⊢
    rw [arithKey_application hun, arithKey_application hvn]
  eq_or_pair {u v} hu hv h := by
    obtain he | ⟨hp, hq⟩ := eq_or_arithPair (u.2.base hu) (v.2.base hv) h
    · exact .inl (Subtype.ext he)
    · rw [← map_properPair, Option.isSome_map] at hp hq
      obtain ⟨p, hp⟩ := Option.isSome_iff_exists.1 hp
      obtain ⟨q, hq⟩ := Option.isSome_iff_exists.1 hq
      refine .inr ⟨p, q, hp, hq, fun he => Subtype.ext ?_⟩
      rw [(eq_of_properPair hp).1, (eq_of_properPair hq).1, he]

/-! ### Canonical terms -/

/-- The names that no variable has. -/
def arithSymbols : List String := ["nil", "QUO", "TIMES", "DIVIDE", "PLUS"]

/-- Numbers, variables, applications, and the sums, products and reciprocals, which have a numeric
argument, if at all, before a term that is no number. -/
inductive Canonical : SExp → Prop
  | number (q : ℚ) : Canonical (qrep q)
  | symbol {n : String} : n ∉ arithSymbols → Canonical (.sym n)
  | apply {f : String} {ts : List SExp} : f ∉ arithSymbols → (∀ t ∈ ts, Canonical t) →
      Canonical (form f ts)
  | arith {f : String} {t : SExp} {ts : List SExp} : f ∈ ["PLUS", "TIMES", "DIVIDE"] →
      Canonical t → qnumberp t = false → (∀ t ∈ ts, Canonical t) → Canonical (form f (t :: ts))
  | coef {f : String} {q : ℚ} {t : SExp} {ts : List SExp} : f ∈ ["PLUS", "TIMES", "DIVIDE"] →
      Canonical t → qnumberp t = false → (∀ t ∈ ts, Canonical t) →
      Canonical (form f (qrep q :: t :: ts))

theorem Canonical.not_mem_arithSymbols {n : String} (h : Canonical (.sym n)) :
    n ∉ arithSymbols := by
  generalize he : SExp.sym n = u at h
  cases h with
  | number q =>
    have hq := qnumberp_qrep q
    rw [← he] at hq
    cases hq
  | symbol hn => exact SExp.sym.inj he ▸ hn
  | _ => cases he

/-- The first argument that is no number -/
theorem timesArithordRep_arith {f : String} {ts : List SExp} (hu : qnumberp u = false) :
    timesArithordRep (form f (u :: ts)) = u := if_neg (Bool.eq_false_iff.1 hu)

theorem timesArithordRep_coef {f : String} {q : ℚ} {ts : List SExp} :
    timesArithordRep (form f (qrep q :: u :: ts)) = u := if_pos (qnumberp_qrep q)

/-- A term and no number, as the one a product is compared by -/
def Compared (u : SExp) : Prop := qnumberp u = false ∧ u ≠ nil

theorem Canonical.compared (h : Canonical u) (hu : qnumberp u = false) : Compared u := by
  refine ⟨hu, ?_⟩
  rintro rfl
  exact h.not_mem_arithSymbols (by decide)

theorem arithordRep_arith {f : String} {d : SExp} (hf : f ∈ ["PLUS", "TIMES", "DIVIDE"])
    (hr : timesArithordRep (.cons (.sym f) d) = u) (hu : Compared u)
    (hur : Compared (arithordRep u)) :
    Compared (arithordRep (.cons (.sym f) d)) := by
  rw [arithordRep, dif_pos (consp_cons _ _), hr]
  split
  · exact hu
  · split
    · exact hur
    · split
      · exact hur
      · simp_all

theorem Canonical.arithordRep (h : Canonical u) (hu : qnumberp u = false) :
    Compared (arithordRep u) := by
  induction h with
  | number q =>
    rw [qnumberp_qrep] at hu
    cases hu
  | symbol hn =>
    rw [GroundProver.arithordRep]
    exact (Canonical.symbol hn).compared hu
  | apply hf hts _ =>
    rw [GroundProver.arithordRep]
    simp only [arithSymbols] at hf
    simp_all [Compared]
  | arith hf ht htn _ ih _ =>
    exact arithordRep_arith hf (timesArithordRep_arith htn) (ht.compared htn) (ih htn)
  | coef hf ht htn _ ih _ =>
    exact arithordRep_arith hf timesArithordRep_coef (ht.compared htn) (ih htn)

theorem proper_ofList {ts : List SExp} (hs : ∀ t ∈ ts, Canonical t) (hp : ∀ t ∈ ts, Proper t) :
    Proper (ofList ts) := by
  induction ts with
  | nil => exact proper_nil
  | cons t ts ih =>
    rw [List.forall_mem_cons] at hs hp
    have hne {n : String} (hn : n ∈ arithSymbols) : t ≠ .sym n := by
      rintro rfl
      exact hs.1.not_mem_arithSymbols hn
    refine ⟨hp.1, ih hs.2 hp.2, fun h => absurd h (hne (by decide)), ?_⟩
    simp [arithKind, hne (n := "TIMES") (by decide), hne (n := "DIVIDE") (by decide)]

theorem proper_form {f : String} {ts : List SExp} (hf : f ≠ "QUO") (hs : ∀ t ∈ ts, Canonical t)
    (hp : ∀ t ∈ ts, Proper t)
    (hrep : (arithKind (form f ts)).isSome → Compared (arithRep (form f ts))) :
    Proper (form f ts) :=
  ⟨trivial, proper_ofList hs hp, fun h => absurd (SExp.sym.inj h) hf, hrep⟩

theorem proper_arith {f : String} {ts : List SExp} (hf : f ∈ ["PLUS", "TIMES", "DIVIDE"])
    (hs : ∀ t ∈ ts, Canonical t) (hp : ∀ t ∈ ts, Proper t)
    (hr : timesArithordRep (form f ts) = u) (hu : Canonical u) (hun : qnumberp u = false) :
    Proper (form f ts) := by
  refine proper_form ?_ hs hp fun _ => ?_
  · rintro rfl
    revert hf
    decide
  · unfold arithRep
    split
    · rw [hr]
      exact hu.compared hun
    · rw [divArithordRep, hr]
      exact hu.arithordRep hun

theorem proper_qrep (q : ℚ) : Proper (qrep q) := by
  generalize hu : qrep q = u
  unfold qrep at hu
  split at hu
  · rw [← hu]
    trivial
  · rename_i hd
    have hq : qmake q.num q.den = qrep q := (if_neg hd).symm
    rw [← hu]
    refine ⟨trivial, ⟨trivial, ⟨trivial, proper_nil, ?_, ?_⟩, ?_, ?_⟩, fun _ => ⟨q, hq⟩, ?_⟩
    · exact fun h => by cases h
    · exact fun h => by cases h
    · exact fun h => by cases h
    · exact fun h => by cases h
    · exact fun h => by cases h

theorem Canonical.proper (h : Canonical u) : Proper u := by
  induction h with
  | number q => exact proper_qrep q
  | symbol hn => trivial
  | apply hf hts ih =>
    refine proper_form ?_ hts ih ?_
    · rintro rfl
      exact hf (by decide)
    · simp only [arithSymbols] at hf
      simp_all [arithKind]
  | arith hf ht htn hts ih ihs =>
    exact proper_arith hf (List.forall_mem_cons.2 ⟨ht, hts⟩) (List.forall_mem_cons.2 ⟨ih, ihs⟩)
      (timesArithordRep_arith htn) ht htn
  | @coef f q t ts hf ht htn hts ih ihs =>
    have hs := List.forall_mem_cons.2 ⟨.number q, List.forall_mem_cons.2 ⟨ht, hts⟩⟩
    have hp := List.forall_mem_cons.2 ⟨proper_qrep q, List.forall_mem_cons.2 ⟨ih, ihs⟩⟩
    exact proper_arith hf hs hp timesArithordRep_coef ht htn

end PVS.GroundProver
