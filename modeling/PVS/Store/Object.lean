import Mathlib.Data.List.Basic
import Mathlib.Data.Rat.Lemmas

/-! The objects that are stored in binary files. -/

namespace PVS.Store

/-! ### Objects -/

abbrev Package := List Char

structure Symbol where
  package : Package
  name : List Char
  deriving DecidableEq

/-- Whether an integer is immediate. -/
def IsFixnum (z : ℤ) : Prop := -2 ^ 62 ≤ z ∧ z < 2 ^ 62

instance (z : ℤ) : Decidable (IsFixnum z) := inferInstanceAs (Decidable (_ ∧ _))

abbrev Fixnum := { z : ℤ // IsFixnum z }

abbrev Bignum := { z : ℤ // ¬ IsFixnum z }

abbrev Ratio := { q : ℚ // q.den ≠ 1 }

/-- What is `eq` to itself only; `ref` is the address of everything else. -/
inductive Value
  | symbol (s : Symbol)
  | package (p : Package)
  | fixnum (z : Fixnum)
  | ref (i : ℕ)
  deriving DecidableEq

/-- The tests of hash tables. -/
inductive Test
  | eq
  | eql
  | equal
  | equalp
  deriving DecidableEq

/-- What an address holds. -/
inductive Node
  | string (chars : List Char)
  | bignum (z : Bignum)
  | ratio (q : Ratio)
  | cons (car cdr : Value)
  | hashTable (test : Test) (entries : List (Value × Value))
  | instance (type : Symbol) (slots : List Value)

abbrev Heap := List Node

/-- The types that have a fetcher. -/
inductive Fetcher
  | string
  | integer
  | rational
  | list
  | cons
  | package
  | packagedSymbol
  | hashTable
  deriving DecidableEq

def Fetcher.name : Fetcher → List Char
  | .string => ['S', 'T', 'R', 'I', 'N', 'G']
  | .integer => ['I', 'N', 'T', 'E', 'G', 'E', 'R']
  | .rational => ['R', 'A', 'T', 'I', 'O', 'N', 'A', 'L']
  | .list => ['L', 'I', 'S', 'T']
  | .cons => ['C', 'O', 'N', 'S']
  | .package => ['P', 'A', 'C', 'K', 'A', 'G', 'E']
  | .packagedSymbol => ['P', 'A', 'C', 'K', 'A', 'G', 'E', 'D', '-', 'S', 'Y', 'M', 'B', 'O', 'L']
  | .hashTable => ['H', 'A', 'S', 'H', '-', 'T', 'A', 'B', 'L', 'E']

def Fetcher.all : List Fetcher :=
  [.string, .integer, .rational, .list, .cons, .package, .packagedSymbol, .hashTable]

/-- The Lisp that stores and fetches: `home` is the package of the symbol that a name stands for in
the package PVS, and `slots` is the number of slots of a class. The reader has made the names of the
classes upper case. -/
structure Lisp where
  home : List Char → Package
  slots : Symbol → Option ℕ
  upper : ∀ c n, slots c = some n → ∃ ch ∈ c.name, ch.isUpper = true
  noFetcher : ∀ c n, slots c = some n → ∀ f : Fetcher, c ≠ ⟨home f.name, f.name⟩

namespace Lisp

variable (l : Lisp)

/-- `intern` in the package PVS. -/
def intern (name : List Char) : Symbol := ⟨l.home name, name⟩

def nil : Symbol := l.intern ['N', 'I', 'L']

def fetcher (type : Symbol) : Option Fetcher := Fetcher.all.find? fun f => l.intern f.name = type

/-- The elements of a list, if it is a true list; none if the cdrs go on after `fuel` conses. -/
def trueList (h : Heap) : (fuel : ℕ) → Value → Option (Option (List Value))
  | 0, _ => none
  | fuel + 1, v =>
    if v = .symbol l.nil then some (some [])
    else match v with
      | .ref i =>
        match h[i]? with
        | some (.cons car cdr) => (trueList h fuel cdr).map (Option.map (car :: ·))
        | _ => some none
      | _ => some none

end Lisp

/-! ### Numbers -/

/-- `~d` -/
def formatInteger (z : ℤ) : List Char :=
  if z < 0 then '-' :: Nat.toDigits 10 z.natAbs else Nat.toDigits 10 z.natAbs

def formatRational (q : ℚ) : List Char := formatInteger q.num ++ '/' :: Nat.toDigits 10 q.den

/-- `parse-integer` with `junk-allowed`: the number, and what comes after it. -/
def parseIntegerJunk (str : List Char) : Option (ℤ × List Char) :=
  let (sign, rest) : ℤ × List Char :=
    match str with
    | '-' :: rest => (-1, rest)
    | '+' :: rest => (1, rest)
    | _ => (1, str)
  let digits := rest.takeWhile Char.isDigit
  if digits = [] then none
  else some (sign * (Nat.ofDigitChars 10 digits 0 : ℕ), rest.dropWhile Char.isDigit)

def parseInteger (str : List Char) : Option ℤ :=
  match parseIntegerJunk str with
  | some (z, []) => some z
  | _ => none

theorem takeWhile_isDigit (n : ℕ) {rest : List Char} (hrest : ∀ c ∈ rest.head?, c.isDigit = false) :
    (Nat.toDigits 10 n ++ rest).takeWhile Char.isDigit = Nat.toDigits 10 n ∧
      (Nat.toDigits 10 n ++ rest).dropWhile Char.isDigit = rest := by
  have hdigits : ∀ c ∈ Nat.toDigits 10 n, c.isDigit = true :=
    fun c hc => Nat.isDigit_of_mem_toDigits (by decide) (by decide) hc
  rw [List.takeWhile_append_of_pos hdigits, List.dropWhile_append_of_pos hdigits]
  cases rest with
  | nil => simp
  | cons c rest => simp [hrest c rfl]

/-- What is written without a sign is read without one. -/
theorem parseIntegerJunk_of_digits {n : ℕ} {rest : List Char}
    (hrest : ∀ c ∈ rest.head?, c.isDigit = false) :
    parseIntegerJunk (Nat.toDigits 10 n ++ rest) = some ((n : ℤ), rest) := by
  obtain ⟨htake, hdrop⟩ := takeWhile_isDigit n hrest
  have hne : Nat.toDigits 10 n ≠ [] := Nat.toDigits_ne_nil
  have hdigit : ∀ c ∈ (Nat.toDigits 10 n ++ rest).head?, c.isDigit = true := by
    intro c hc
    rw [List.head?_append_of_ne_nil _ hne] at hc
    exact Nat.isDigit_of_mem_toDigits (by decide) (by decide) (List.mem_of_mem_head? hc)
  have hsign : (match Nat.toDigits 10 n ++ rest with
      | '-' :: rest => ((-1 : ℤ), rest)
      | '+' :: rest => (1, rest)
      | _ => (1, Nat.toDigits 10 n ++ rest)) = (1, Nat.toDigits 10 n ++ rest) := by
    split
    case h_1 tail heq => exact absurd (hdigit '-' (by simp [heq])) (by decide)
    case h_2 tail heq => exact absurd (hdigit '+' (by simp [heq])) (by decide)
    case h_3 => rfl
  simp only [parseIntegerJunk, hsign, htake, hdrop, if_neg hne, Nat.ofDigitChars_ten_toDigits,
    Int.one_mul]

/-- A number that is written is read again, up to what is no digit. -/
theorem parseIntegerJunk_formatInteger (z : ℤ) {rest : List Char}
    (hrest : ∀ c ∈ rest.head?, c.isDigit = false) :
    parseIntegerJunk (formatInteger z ++ rest) = some (z, rest) := by
  rw [formatInteger]
  split_ifs with hneg
  · obtain ⟨htake, hdrop⟩ := takeWhile_isDigit z.natAbs hrest
    have hne : Nat.toDigits 10 z.natAbs ≠ [] := Nat.toDigits_ne_nil
    simp only [parseIntegerJunk, List.cons_append, htake, hdrop, if_neg hne,
      Nat.ofDigitChars_ten_toDigits]
    congr 2
    omega
  · rw [parseIntegerJunk_of_digits hrest]
    congr 2
    omega

theorem parseInteger_formatInteger (z : ℤ) : parseInteger (formatInteger z) = some z := by
  have hparse : parseIntegerJunk (formatInteger z ++ []) = some (z, []) :=
    parseIntegerJunk_formatInteger z (by simp)
  rw [List.append_nil] at hparse
  rw [parseInteger, hparse]

/-- `fetch-rational`: two numbers with a character between them. -/
def parseRational (str : List Char) : Option ℚ :=
  match parseIntegerJunk str with
  | some (num, _ :: rest) =>
    match parseInteger rest with
    | some den => some ((num : ℚ) / den)
    | none => none
  | _ => none

theorem parseRational_formatRational (q : ℚ) : parseRational (formatRational q) = some q := by
  have hnum : parseIntegerJunk (formatInteger q.num ++ '/' :: Nat.toDigits 10 q.den) =
      some (q.num, '/' :: Nat.toDigits 10 q.den) :=
    parseIntegerJunk_formatInteger q.num (by simp [Char.isDigit])
  have hden : parseIntegerJunk (Nat.toDigits 10 q.den ++ []) = some ((q.den : ℤ), []) :=
    parseIntegerJunk_of_digits (by simp)
  rw [List.append_nil] at hden
  rw [parseRational, formatRational, hnum]
  simp only [parseInteger, hden]
  rw [Int.cast_natCast, Rat.num_div_den]

end PVS.Store
