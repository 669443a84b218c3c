import Mathlib
import PVS.Library.Separator

/-! The C names of declarations. -/

namespace PVS.GroundEval.DeclId

open Library

/-- An identifier is the list of its characters. -/
abbrev Id := List Char

/-- `*pvs-operators*` -/
def pvsOperators : List (String × String) :=
  [("=", "equal"), ("<", "lessp"), ("<=", "lesseqp"), (">", "greaterp"), (">=", "greatereqp"),
    ("+", "plus"), ("-", "difference"), ("*", "times"), ("/", "divide"), ("/=", "notequal"),
    ("≠", "notequal"), ("==", "equiv"), ("&", "and"), ("/\\", "wedge"), ("∧", "wedge"),
    ("\\/", "vee"), ("∨", "vee"), ("^", "caret"), ("¬", "not"), ("<>", "diamond"),
    ("◇", "diamond"), ("□", "box"), ("~", "tilde"), ("=>", "implies"), ("⇒", "arimplies"),
    ("<=>", "iff"), ("⇔", "ariff"), ("++", "doubleplus"), ("--", "doubleminus"),
    ("**", "doubletimes"), ("//", "doubledivide"), ("^^", "doublecaret"), ("<<", "doublelessp"),
    (">>", "doublegreaterp"), ("<<=", "doublelesseqp"), (">>=", "doublegreatereqp"),
    ("#", "sharp"), ("@@", "doubleat"), ("##", "doublesharp"), ("|-", "turnstile"),
    ("⊢", "turnstile"), ("|=", "models"), ("⊨", "models"), ("<|", "triangleleft"),
    ("|>", "triangleright"), ("[||]", "specialbrackets"), ("(||)", "specialparens"),
    ("\x7b||\x7d", "specialbraces"), ("O", "oh"), ("o", "oh"), ("∘", "oh"), ("⊕", "oplus"),
    ("≁", "nsim"), ("≃", "simeq"), ("≅", "cong"), ("∼", "sim"), ("≇", "ncong"), ("≍", "asymp"),
    ("≈", "approx"), ("≉", "napprox"), ("≎", "Bumpeq"), ("≏", "bumpeq"), ("≐", "doteq"),
    ("≗", "circeq"), ("≙", "defs"), ("≡", "equiv"), ("≤", "leq"), ("≥", "geq"), ("≦", "leqq"),
    ("≧", "geqq"), ("≨", "lneq"), ("≩", "gneq"), ("≪", "ll"), ("≫", "gg"), ("≮", "nless"),
    ("≯", "ngtr"), ("≰", "nleq"), ("≱", "ngeq"), ("≺", "prec"), ("≻", "succ"), ("▷", "rhd"),
    ("◁", "lhd"), ("∈", "in"), ("∉", "notin"), ("⊂", "subset"), ("⊃", "supset"), ("⊄", "nsubset"),
    ("⊅", "nsupset"), ("⊆", "subseteq"), ("⊇", "supseteq"), ("⊊", "subsetneq"), ("⊋", "supsetneq"),
    ("⊏", "sqsubset"), ("⊐", "sqsupset"), ("•", "bullet"), ("∋", "ni"), ("←", "leftarrow"),
    ("↑", "uparrow"), ("→", "rightarrow"), ("↓", "downarrow"), ("↝", "leadsto"), ("↦", "mapsto"),
    ("⇐", "Leftarrow"), ("⋂", "bigcap"), ("⇑", "Uparrow"), ("⇓", "Downarrow"), ("∇", "nabla"),
    ("⊣", "dashv"), ("⊥", "perp"), ("⊩", "Vdash"), ("◯", "bigcirc"), ("★", "bigstar"),
    ("✠", "maltese"), ("⋈", "Join"), ("⊖", "ominus"), ("⨁", "n-ary_circled_plus_operator"),
    ("±", "pm"), ("∓", "mp"), ("∔", "dotplus"), ("⊞", "boxplus"), ("⊟", "boxminus"),
    ("⊎", "uplus"), ("∪", "cup"), ("⊔", "sqcup"), ("⋁", "bigvee"), ("⋃", "bigcup"),
    ("⊘", "oslash"), ("⊗", "otimes"), ("⊙", "odot"), ("⊛", "circledast"),
    ("⨂", "n-ary_circled_times_operator"), ("⨀", "n-ary_circled_dot_operator"), ("×", "times"),
    ("÷", "div"), ("⊠", "boxtimes"), ("∩", "cap"), ("⊓", "sqcap"), ("⋀", "bigwedge")]

/-- `(format nil "~r" n)` of a digit -/
def cardinal (n : ℕ) : Id :=
  (["zero", "one", "two", "three", "four", "five", "six", "seven", "eight", "nine"].getD n
    "").toList

/-- `op-to-id` -/
def opToId (id : Id) : Id :=
  match pvsOperators.find? (fun e => e.1.toList == id) with
  | some e => e.2.toList
  | none =>
    match id with
    | [] => []
    | c :: l =>
      if c.isDigit then if l.isEmpty then cardinal (c.toNat - '0'.toNat) else 'n' :: c :: l
      else c :: l

/-- `simple-id` -/
def simpleId (id : Id) : Id := (opToId id).map fun c => if c = '?' then 'p' else c

/-- `(format out "_u~x_" (char-code ch))` -/
def spell (ch : Char) : Id :=
  '_' :: 'u' :: ((Nat.toDigits 16 ch.toNat).map Char.toUpper ++ ['_'])

/-- How `pvsid-to-cstring` writes a character of an identifier that is not an operator. -/
def writeChar (ch : Char) : Id :=
  if ch = '?' then ['_', 'p'] else if ch.toNat < 128 then [ch] else spell ch

/-- `pvsid-to-cstring` -/
def pvsidToCstring (str : Id) : Id :=
  if pvsOperators.any fun e => e.1.toList == str then str.flatMap spell
  else str.flatMap writeChar

/-- What is given to `pvs2ir-unique-decl-id` for constructors of enumerations and recognizers. -/
inductive NamePrefix where
  | enumeration
  | recognizer
  deriving DecidableEq

def NamePrefix.name : NamePrefix → Id
  | enumeration => "enum".toList
  | recognizer => "rec".toList

/-- `make-c-name` -/
def makeCName (pre : Option NamePrefix) (moduleId declId : Id) : Id :=
  match pre with
  | some p => pvsidToCstring (p.name ++ '_' :: (moduleId ++ '_' :: '_' :: declId))
  | none => pvsidToCstring (moduleId ++ '_' :: '_' :: declId)

structure Decl where
  id : Id
  constDecl : Bool
  pre : Option NamePrefix

/-- The identifier of a theory, or `instance-theory-id` of a monomorphic instance. -/
inductive TheoryId where
  | theory (id : Id)
  | mono (rootTheoryId : Id) (typeActuals : List Id) (theoryRootSuffix : Id)

def TheoryId.id : TheoryId → Id
  | theory id => id
  | mono rootTheoryId typeActuals theoryRootSuffix =>
    simpleId rootTheoryId ++ '_' :: (['_'].intercalate typeActuals ++ theoryRootSuffix)

/-- The declarations that are named under one `*theory-id*`. -/
structure Theory where
  theoryId : TheoryId
  theory : List Decl

namespace Theory

variable (th : Theory)

/-- `same-id-decls` -/
def sameIdDecls (declId : Id) : List (Fin th.theory.length) :=
  (List.finRange th.theory.length).filter fun j =>
    th.theory[j].constDecl && simpleId th.theory[j].id == declId

/-- The number of an overloaded constant. -/
def idx (i : Fin th.theory.length) : Option ℕ :=
  if th.theory[i].constDecl then
    let same := th.sameIdDecls (simpleId th.theory[i].id)
    if same.tail.isEmpty then none else some (1 + same.idxOf i)
  else none

/-- `pvs2ir-unique-decl-id` -/
def uniqueDeclId (i : Fin th.theory.length) : Id :=
  let moduleId := simpleId th.theoryId.id
  let declId := simpleId th.theory[i].id
  match th.idx i with
  | some idx => makeCName th.theory[i].pre moduleId (declId ++ '_' :: Nat.toDigits 10 idx)
  | none => makeCName th.theory[i].pre moduleId declId

end Theory

/-- A letter, a digit or an underscore. -/
def identChar (c : Char) : Bool := c.isAlphanum || c == '_'

def validCIdentifier : Id → Bool
  | [] => false
  | c :: l => !c.isDigit && (c :: l).all identChar

/-! ### The parts of a name -/

/-- The characters of an identifier that is not an operator, written in C. -/
def write (id : Id) : Id := id.flatMap writeChar

theorem write_append (a b : Id) : write (a ++ b) = write a ++ write b := List.flatMap_append

theorem write_cons (c : Char) (l : Id) : write (c :: l) = writeChar c ++ write l := rfl

theorem pvsOperators_no_underscore :
    ∀ e ∈ pvsOperators, '_' ∉ e.1.toList ∧ e.2.toList.head?.any Char.isDigit = false := by
  decide +kernel

/-- Names are never spelled out as operators. -/
theorem pvsidToCstring_of_mem {str : Id} (h : '_' ∈ str) : pvsidToCstring str = write str := by
  have hany : (pvsOperators.any fun e => e.1.toList == str) = false := by
    rw [List.any_eq_false]
    intro e he heq
    rw [beq_iff_eq] at heq
    exact (pvsOperators_no_underscore e he).1 (heq ▸ h)
  rw [pvsidToCstring, hany, if_neg Bool.false_ne_true, write]

theorem toNat_lt_of_identChar {c : Char} (h : identChar c = true) : c.toNat < 128 := by
  simp only [identChar, Char.isAlphanum, Char.isAlpha, Char.isUpper, Char.isLower, Char.isDigit,
    Bool.or_eq_true, Bool.and_eq_true, decide_eq_true_eq, beq_iff_eq, ge_iff_le,
    UInt32.le_iff_toNat_le] at h
  obtain ((h | h) | h) | rfl := h
  · exact Nat.lt_of_le_of_lt h.2 (by decide)
  · exact Nat.lt_of_le_of_lt h.2 (by decide)
  · exact Nat.lt_of_le_of_lt h.2 (by decide)
  · decide

theorem writeChar_of_identChar {c : Char} (h : identChar c = true) : writeChar c = [c] := by
  have hne : c ≠ '?' := by
    rintro rfl
    cases h
  rw [writeChar, if_neg hne, if_pos (toNat_lt_of_identChar h)]

theorem write_of_identChar {id : Id} (h : ∀ c ∈ id, identChar c = true) : write id = id := by
  induction id with
  | nil => rfl
  | cons c l ih =>
    rw [List.forall_mem_cons] at h
    rw [write_cons, writeChar_of_identChar h.1, ih h.2, List.singleton_append]

theorem identChar_underscore : identChar '_' = true := rfl

theorem identChar_of_isDigit {c : Char} (h : c.isDigit = true) : identChar c = true := by
  rw [identChar, Char.isAlphanum, h, Bool.or_true, Bool.true_or]

theorem identChar_of_mem_toDigits {n : ℕ} {c : Char} (h : c ∈ Nat.toDigits 10 n) :
    identChar c = true :=
  identChar_of_isDigit (Nat.isDigit_of_mem_toDigits (by decide) (by decide) h)

variable {th th' : Theory}

/-- What stands before the last two underscores of `make-c-name`. -/
def theoryPart (th : Theory) (i : Fin th.theory.length) : Id :=
  match th.theory[i].pre with
  | some p => p.name ++ '_' :: write (simpleId th.theoryId.id)
  | none => write (simpleId th.theoryId.id)

def ident (th : Theory) (i : Fin th.theory.length) : Id := write (simpleId th.theory[i].id)

def numbered (id : Id) : Option ℕ → Id
  | some k => id ++ '_' :: Nat.toDigits 10 k
  | none => id

theorem write_numbered (id : Id) (k : Option ℕ) : write (numbered id k) = numbered (write id) k := by
  cases k with
  | none => rfl
  | some k =>
    rw [numbered, numbered, write_append, write_cons, writeChar_of_identChar identChar_underscore,
      write_of_identChar fun _ => identChar_of_mem_toDigits, List.singleton_append]

theorem NamePrefix.identChar_of_mem (p : NamePrefix) : ∀ c ∈ p.name, identChar c = true := by
  rw [← List.all_eq_true]
  cases p <;> rfl

theorem uniqueDeclId_eq (th : Theory) (i : Fin th.theory.length) :
    th.uniqueDeclId i = theoryPart th i ++ '_' :: '_' :: numbered (ident th i) (th.idx i) := by
  have hname : th.uniqueDeclId i = makeCName th.theory[i].pre (simpleId th.theoryId.id)
      (numbered (simpleId th.theory[i].id) (th.idx i)) := by
    unfold Theory.uniqueDeclId
    cases th.idx i <;> rfl
  rw [hname, makeCName.eq_def, theoryPart, ident, ← write_numbered]
  cases th.theory[i].pre with
  | some p =>
    dsimp only
    rw [pvsidToCstring_of_mem (by simp), write_append, write_cons, write_append, write_cons,
      write_cons, writeChar_of_identChar identChar_underscore, write_of_identChar p.identChar_of_mem]
    simp
  | none =>
    dsimp only
    rw [pvsidToCstring_of_mem (by simp), write_append, write_cons, write_cons,
      writeChar_of_identChar identChar_underscore]
    rfl

/-! ### Names that coincide -/

/-- An identifier that ends in a number, as an overloaded constant's name does. -/
theorem numbered_eq_iff {a b : Id} {k l : Option ℕ} :
    numbered a k = numbered b l ↔
      (a = b ∧ k = l) ∨ (∃ n, k = some n ∧ l = none ∧ b = numbered a (some n)) ∨
        ∃ n, l = some n ∧ k = none ∧ a = numbered b (some n) := by
  cases k with
  | none =>
    cases l with
    | none => simp [numbered]
    | some l => simp [numbered]
  | some k =>
    cases l with
    | none => simp [numbered, eq_comm]
    | some l =>
      have hdigits : Nat.toDigits 10 k = Nat.toDigits 10 l ↔ k = l := by
        constructor
        · intro h
          rw [← @Nat.ofDigitChars_ten_toDigits k, h, Nat.ofDigitChars_ten_toDigits]
        · rintro rfl
          rfl
      rw [numbered, numbered, append_cons_eq_iff Nat.underscore_not_in_toDigits
        Nat.underscore_not_in_toDigits, hdigits]
      simp

/-- Why the names of two declarations are the same: equal parts, or a part that ends in a number,
or two underscores inside a part. -/
def Coincide (th : Theory) (i : Fin th.theory.length) (th' : Theory)
    (j : Fin th'.theory.length) : Prop :=
  let m := theoryPart th i
  let m' := theoryPart th' j
  let d := ident th i
  let d' := ident th' j
  (m = m' ∧ ((d = d' ∧ th.idx i = th'.idx j) ∨
    (∃ n, th.idx i = some n ∧ th'.idx j = none ∧ d' = numbered d (some n)) ∨
    ∃ n, th'.idx j = some n ∧ th.idx i = none ∧ d = numbered d' (some n))) ∨
  Shifted '_' m (numbered d (th.idx i)) m' (numbered d' (th'.idx j)) ∨
  Shifted '_' m' (numbered d' (th'.idx j)) m (numbered d (th.idx i))

theorem uniqueDeclId_eq_iff (i : Fin th.theory.length) (j : Fin th'.theory.length) :
    th.uniqueDeclId i = th'.uniqueDeclId j ↔ Coincide th i th' j := by
  rw [uniqueDeclId_eq, uniqueDeclId_eq, append_cons_cons_eq_iff, numbered_eq_iff, Coincide]

/-! ### Names that are C identifiers -/

/-- Characters that C allows or that are spelled out. -/
def Writable (id : Id) : Prop := ∀ c ∈ simpleId id, identChar c = true ∨ 128 ≤ c.toNat

theorem identChar_digitChar : ∀ d < 16, identChar d.digitChar.toUpper = true := by decide

theorem identChar_of_mem_hex {n : ℕ} {c : Char}
    (h : c ∈ (Nat.toDigits 16 n).map Char.toUpper) : identChar c = true := by
  induction n using Nat.strong_induction_on generalizing c with
  | _ n ih =>
    rw [Nat.toDigits_eq_if (by decide)] at h
    split at h
    · rename_i hn
      rw [List.map_singleton, List.mem_singleton] at h
      exact h ▸ identChar_digitChar n hn
    · rename_i hn
      rw [List.map_append, List.mem_append, List.map_singleton, List.mem_singleton] at h
      obtain h | h := h
      · exact ih (n / 16) (Nat.div_lt_self (by omega) (by decide)) h
      · exact h ▸ identChar_digitChar _ (Nat.mod_lt _ (by decide))

theorem identChar_of_mem_spell {c : Char} : ∀ b ∈ spell c, identChar b = true := by
  intro b hb
  simp only [spell, List.mem_cons, List.mem_append, List.not_mem_nil, or_false] at hb
  obtain rfl | rfl | hb | rfl := hb
  · rfl
  · rfl
  · exact identChar_of_mem_hex hb
  · rfl

theorem all_writeChar_iff {c : Char} (hc : c ≠ '?') :
    (∀ b ∈ writeChar c, identChar b = true) ↔ identChar c = true ∨ 128 ≤ c.toNat := by
  rw [writeChar, if_neg hc]
  split
  · rename_i h
    simp [Nat.not_le.2 h]
  · rename_i h
    exact iff_of_true identChar_of_mem_spell (.inr (Nat.not_lt.1 h))

theorem ne_of_mem_simpleId {id : Id} {c : Char} (h : c ∈ simpleId id) : c ≠ '?' := by
  obtain ⟨b, -, rfl⟩ := List.mem_map.1 h
  split
  · decide
  · assumption

theorem all_write_iff (id : Id) :
    (∀ b ∈ write (simpleId id), identChar b = true) ↔ Writable id := by
  rw [Writable, write, List.forall_mem_flatMap]
  exact forall₂_congr fun c hc => all_writeChar_iff (ne_of_mem_simpleId hc)

theorem head_cardinal (n : ℕ) : (cardinal n).head?.any Char.isDigit = false := by
  have hdigit : ∀ n < 10, (cardinal n).head?.any Char.isDigit = false := by decide
  by_cases hn : n < 10
  · exact hdigit n hn
  · have hnone : ["zero", "one", "two", "three", "four", "five", "six", "seven", "eight",
        "nine"][n]? = none := List.getElem?_eq_none (Nat.not_lt.1 hn)
    rw [cardinal, List.getD_eq_getElem?_getD, hnone]
    rfl

theorem head_opToId (id : Id) : (opToId id).head?.any Char.isDigit = false := by
  unfold opToId
  split
  · rename_i e he
    exact (pvsOperators_no_underscore e (List.mem_of_find?_eq_some he)).2
  · split
    · rfl
    · rename_i c l
      split
      · rename_i hc
        split
        · exact head_cardinal _
        · rfl
      · rename_i hc
        simpa using hc

theorem head_simpleId (id : Id) : (simpleId id).head?.any Char.isDigit = false := by
  have h := head_opToId id
  rw [simpleId, List.head?_map, Option.any_map]
  cases hhead : (opToId id).head? with
  | none => rfl
  | some c =>
    rw [hhead] at h
    rw [Option.any_some] at h ⊢
    by_cases hc : c = '?'
    · subst hc
      rfl
    · rwa [if_neg hc]

theorem head_write (id : Id) (h : id.head?.any Char.isDigit = false) :
    (write id).head?.any Char.isDigit = false := by
  cases id with
  | nil => rfl
  | cons c l =>
    rw [write_cons, writeChar]
    split
    · rfl
    · split
      · exact h
      · rfl

theorem validCIdentifier_iff {l : Id} (hne : l ≠ []) (h : l.head?.any Char.isDigit = false) :
    validCIdentifier l = true ↔ ∀ c ∈ l, identChar c = true := by
  cases l with
  | nil => exact absurd rfl hne
  | cons c l =>
    rw [List.head?_cons, Option.any_some] at h
    rw [validCIdentifier, h, Bool.not_false, Bool.true_and, List.all_eq_true]

theorem all_numbered_iff (id : Id) (k : Option ℕ) :
    (∀ c ∈ numbered id k, identChar c = true) ↔ ∀ c ∈ id, identChar c = true := by
  cases k with
  | none => rfl
  | some k =>
    rw [numbered, List.forall_mem_append, List.forall_mem_cons, and_iff_left_iff_imp]
    exact fun _ => ⟨rfl, fun c => identChar_of_mem_toDigits⟩

theorem all_theoryPart_iff (th : Theory) (i : Fin th.theory.length) :
    (∀ c ∈ theoryPart th i, identChar c = true) ↔ Writable th.theoryId.id := by
  rw [← all_write_iff, theoryPart]
  cases th.theory[i].pre with
  | none => rfl
  | some p =>
    dsimp only
    rw [List.forall_mem_append, List.forall_mem_cons, and_iff_right p.identChar_of_mem,
      and_iff_right identChar_underscore]

theorem head_theoryPart (th : Theory) (i : Fin th.theory.length) :
    (theoryPart th i).head?.any Char.isDigit = false := by
  rw [theoryPart]
  cases th.theory[i].pre with
  | none => exact head_write _ (head_simpleId _)
  | some p => cases p <;> rfl

theorem validCIdentifier_uniqueDeclId_iff (i : Fin th.theory.length) :
    validCIdentifier (th.uniqueDeclId i) = true ↔
      Writable th.theoryId.id ∧ Writable th.theory[i].id := by
  have hhead : (th.uniqueDeclId i).head?.any Char.isDigit = false := by
    have h := head_theoryPart th i
    rw [uniqueDeclId_eq, List.head?_append]
    cases hpart : (theoryPart th i).head? with
    | none => rfl
    | some c =>
      rw [hpart] at h
      exact h
  have hne : th.uniqueDeclId i ≠ [] := by simp [uniqueDeclId_eq]
  rw [validCIdentifier_iff hne hhead, uniqueDeclId_eq, List.forall_mem_append,
    List.forall_mem_cons, List.forall_mem_cons, all_numbered_iff, all_theoryPart_iff, ident,
    all_write_iff, and_iff_right identChar_underscore, and_iff_right identChar_underscore]

/-! ### The names of a set of theories -/

/-- A declaration of one of the theories. -/
abbrev Ref (theories : List Theory) :=
  (t : Fin theories.length) × Fin theories[t].theory.length

def cName {theories : List Theory} (r : Ref theories) : Id := theories[r.1].uniqueDeclId r.2

theorem cNames_unique_iff (theories : List Theory) :
    (∀ r r' : Ref theories, r ≠ r' → cName r ≠ cName r') ∧
        (∀ r : Ref theories, validCIdentifier (cName r) = true) ↔
      (∀ r r' : Ref theories, r ≠ r' → ¬ Coincide theories[r.1] r.2 theories[r'.1] r'.2) ∧
        ∀ r : Ref theories, Writable theories[r.1].theoryId.id ∧
          Writable theories[r.1].theory[r.2].id := by
  refine and_congr (forall₂_congr fun r r' => imp_congr_right fun _ => not_congr ?_)
    (forall_congr' fun r => validCIdentifier_uniqueDeclId_iff r.2)
  exact uniqueDeclId_eq_iff r.2 r'.2

/-- Overloaded constants beside one whose name ends in a number. -/
def overloaded : Theory where
  theoryId := .theory "a".toList
  theory := [⟨"c".toList, true, none⟩, ⟨"c".toList, true, none⟩, ⟨"c_1".toList, true, none⟩]

/-- Underscores in the name of a constant, and of a theory. -/
def underscores : List Theory :=
  [⟨.theory "a".toList, [⟨"b__c".toList, true, none⟩]⟩,
    ⟨.theory "a__b".toList, [⟨"c".toList, true, none⟩]⟩]

/-- A theory that is named as an instance of another one. -/
def instances : List Theory :=
  [⟨.mono "a".toList ["int8".toList] [], [⟨"c".toList, true, none⟩]⟩,
    ⟨.theory "a_int8".toList, [⟨"c".toList, true, none⟩]⟩]

/-- An operator that is named with a hyphen. -/
def circledPlus : Theory := ⟨.theory "a".toList, [⟨"⨁".toList, true, none⟩]⟩

theorem cNames_collide :
    (∃ r r' : Ref [overloaded], r ≠ r' ∧ cName r = cName r') ∧
      (∃ r r' : Ref underscores, r ≠ r' ∧ cName r = cName r') ∧
      (∃ r r' : Ref instances, r ≠ r' ∧ cName r = cName r') ∧
      ∃ r : Ref [circledPlus], validCIdentifier (cName r) = false := by
  refine ⟨⟨⟨0, ⟨0, ?_⟩⟩, ⟨0, ⟨2, ?_⟩⟩, ?_⟩, ⟨⟨⟨0, ?_⟩, ⟨0, ?_⟩⟩, ⟨⟨1, ?_⟩, ⟨0, ?_⟩⟩, ?_⟩,
    ⟨⟨⟨0, ?_⟩, ⟨0, ?_⟩⟩, ⟨⟨1, ?_⟩, ⟨0, ?_⟩⟩, ?_⟩, ⟨⟨0, ⟨0, ?_⟩⟩, ?_⟩⟩
  all_goals decide +kernel

end PVS.GroundEval.DeclId
