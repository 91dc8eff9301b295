import Mathlib.Data.List.TakeWhile

namespace Tebako.Data.TextStream

/-! Formatted input from a text. Blanks before an item are skipped, and a number takes
all the digits there are. -/

def isBlank (char : Char) : Bool := char = ' ' ∨ 9 ≤ char.toNat ∧ char.toNat ≤ 13

def decimal (digits : List Char) : Nat :=
  digits.foldl (fun value digit => 10 * value + (digit.toNat - 48)) 0

/-- A sign, if there is one, and whether it is a minus sign. -/
def readSign : List Char → Bool × List Char
  | '-' :: rest => (true, rest)
  | '+' :: rest => (false, rest)
  | text => (false, text)

def extractChar (text : List Char) : Option (Char × List Char) :=
  match text.dropWhile isBlank with
  | [] => none
  | char :: rest => some (char, rest)

section Numbers

/-! Unsigned numbers up to a limit. What is made of the digits after a minus sign is
left open. -/

variable (limit : Nat) (negated : Nat → Option Nat)

def number (minus : Bool) (digits : List Char) : Option Nat :=
  if digits = [] then none
  else if minus then negated (decimal digits)
  else if decimal digits ≤ limit then some (decimal digits) else none

def extractUnsigned (text : List Char) : Option (Nat × List Char) :=
  let (minus, text) := readSign (text.dropWhile isBlank)
  (number limit negated minus (text.takeWhile Char.isDigit)).map fun value =>
    (value, text.dropWhile Char.isDigit)

/-- `rest` is what follows all the digits of a number. -/
structure Digits (digits rest : List Char) : Prop where
  nonempty : digits ≠ []
  digits : ∀ digit ∈ digits, digit.isDigit = true
  ended : ∀ next, rest.head? = some next → next.isDigit = false

def IsSign (minus : Bool) (sign : List Char) : Prop :=
  if minus then sign = ['-'] else sign = [] ∨ sign = ['+']

/-- The numbers that are accepted. -/
def IsNumber (text : List Char) (value : Nat) (rest : List Char) : Prop :=
  ∃ blanks minus sign digits, (∀ blank ∈ blanks, isBlank blank = true) ∧ IsSign minus sign ∧
    Digits digits rest ∧ number limit negated minus digits = some value ∧
    text = blanks ++ (sign ++ (digits ++ rest))

variable {limit negated} {text rest digits : List Char} {value : Nat} {minus : Bool} {char : Char}

theorem not_isBlank_of_isDigit (digit : char.isDigit = true) : isBlank char = false := by
  simp only [Char.isDigit, Bool.and_eq_true, decide_eq_true_eq, ge_iff_le, UInt32.le_iff_toNat_le] at digit
  have low : 48 ≤ char.toNat := digit.1
  have notSpace : char ≠ ' ' := by
    intro space
    rw [space] at low
    exact absurd low (by decide)
  simp only [isBlank, notSpace, false_or, decide_eq_false_iff_not]
  omega

theorem number_nonempty (found : number limit negated minus digits = some value) : digits ≠ [] := by
  intro empty
  simp [number, empty] at found

theorem Digits.takeWhile (runs : Digits digits rest) : (digits ++ rest).takeWhile Char.isDigit = digits := by
  rw [List.takeWhile_append_of_pos runs.digits]
  have none : rest.takeWhile Char.isDigit = [] := by
    cases rest with
    | nil => rfl
    | cons next rest => rw [List.takeWhile_cons_of_neg (by simp [runs.ended next rfl])]
  rw [none, List.append_nil]

theorem Digits.dropWhile (runs : Digits digits rest) : (digits ++ rest).dropWhile Char.isDigit = rest := by
  rw [List.dropWhile_append_of_pos runs.digits]
  cases rest with
  | nil => rfl
  | cons next rest => rw [List.dropWhile_cons_of_neg (by simp [runs.ended next rfl])]

theorem readSign_spec (text : List Char) :
    ∃ sign, IsSign (readSign text).1 sign ∧ text = sign ++ (readSign text).2 := by
  unfold readSign
  split
  · exact ⟨['-'], rfl, rfl⟩
  · exact ⟨['+'], .inr rfl, rfl⟩
  · exact ⟨[], .inl rfl, rfl⟩

theorem readSign_of_isSign {sign : List Char} (isSign : IsSign minus sign) (runs : Digits digits rest) :
    readSign (sign ++ (digits ++ rest)) = (minus, digits ++ rest) := by
  cases minus with
  | true =>
      cases isSign
      rfl
  | false =>
      rcases isSign with rfl | rfl
      · cases digits with
        | nil => exact absurd rfl runs.nonempty
        | cons digit digits =>
            have isDigit := runs.digits digit (by simp)
            have notMinus : digit ≠ '-' := by
              intro same
              rw [same] at isDigit
              exact absurd isDigit (by decide)
            have notPlus : digit ≠ '+' := by
              intro same
              rw [same] at isDigit
              exact absurd isDigit (by decide)
            simp [readSign, notMinus, notPlus]
      · rfl

theorem dropWhile_sign {sign : List Char} (isSign : IsSign minus sign) (runs : Digits digits rest) :
    (sign ++ (digits ++ rest)).dropWhile isBlank = sign ++ (digits ++ rest) := by
  cases minus with
  | true =>
      cases isSign
      rfl
  | false =>
      rcases isSign with rfl | rfl
      · cases digits with
        | nil => exact absurd rfl runs.nonempty
        | cons digit digits =>
            have plain := not_isBlank_of_isDigit (runs.digits digit (by simp))
            simp [plain]
      · rfl

theorem extractUnsigned_iff :
    extractUnsigned limit negated text = some (value, rest) ↔ IsNumber limit negated text value rest := by
  constructor
  · intro extracted
    obtain ⟨sign, isSign, split⟩ := readSign_spec (text.dropWhile isBlank)
    simp only [extractUnsigned, Option.map_eq_some_iff, Prod.mk.injEq] at extracted
    obtain ⟨_, found, rfl, rfl⟩ := extracted
    refine ⟨text.takeWhile isBlank, _, sign, _, fun blank => List.mem_takeWhile_imp, isSign,
      ⟨number_nonempty found, fun digit => List.mem_takeWhile_imp, ?_⟩, found, ?_⟩
    · intro next head
      have stopped := List.head?_dropWhile_not Char.isDigit (readSign (text.dropWhile isBlank)).2
      rw [head] at stopped
      simpa using stopped
    · rw [List.takeWhile_append_dropWhile, ← split, List.takeWhile_append_dropWhile]
  · intro isNumber
    obtain ⟨blanks, minus, sign, digits, blank, isSign, runs, found, rfl⟩ := isNumber
    simp only [extractUnsigned, List.dropWhile_append_of_pos blank, dropWhile_sign isSign runs,
      readSign_of_isSign isSign runs, runs.takeWhile, runs.dropWhile, found, Option.map_some]

end Numbers

/-- `rest` is what follows the next character that is not a blank. -/
def IsChar (text : List Char) (char : Char) (rest : List Char) : Prop :=
  ∃ blanks, (∀ blank ∈ blanks, isBlank blank = true) ∧ isBlank char = false ∧
    text = blanks ++ char :: rest

theorem extractChar_iff {text rest : List Char} {char : Char} :
    extractChar text = some (char, rest) ↔ IsChar text char rest := by
  constructor
  · intro extracted
    cases left : text.dropWhile isBlank with
    | nil => simp [extractChar, left] at extracted
    | cons next later =>
        simp only [extractChar, left, Option.some.injEq, Prod.mk.injEq] at extracted
        obtain ⟨rfl, rfl⟩ := extracted
        refine ⟨text.takeWhile isBlank, fun blank => List.mem_takeWhile_imp, ?_, ?_⟩
        · have stopped := List.head?_dropWhile_not isBlank text
          rw [left] at stopped
          simpa using stopped
        · rw [← left, List.takeWhile_append_dropWhile]
  · intro isChar
    obtain ⟨blanks, blank, plain, rfl⟩ := isChar
    simp only [extractChar, List.dropWhile_append_of_pos blank]
    rw [List.dropWhile_cons_of_neg (by simp [plain])]

end Tebako.Data.TextStream
