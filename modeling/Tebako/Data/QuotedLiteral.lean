import Mathlib.Data.List.Basic
import Mathlib.Data.List.Infix

namespace Tebako.Data.QuotedLiteral

/-! Program text with literals in single quotes, as scripting languages have them:
a backslash before a quote or before another backslash stands for the second
character, and any other backslash for itself. -/

/-- A literal's value, and the code from behind it to the next literal. -/
abbrev Literal := List Char × List Char

/-- The code before the first literal, and the literals. -/
abbrev Program := List Char × List Literal

mutual

def readCode : List Char → Option Program
  | [] => some ([], [])
  | '\'' :: rest => (readLiteral rest).map fun (literal, more) => ([], literal :: more)
  | char :: rest => (readCode rest).map fun (code, more) => (char :: code, more)

/-- From behind an opening quote. A literal that is not closed is no program. -/
def readLiteral : List Char → Option (Literal × List Literal)
  | [] => none
  | '\'' :: rest => (readCode rest).map fun (code, more) => (([], code), more)
  | '\\' :: '\\' :: rest => (readLiteral rest).map fun ((value, code), more) => (('\\' :: value, code), more)
  | '\\' :: '\'' :: rest => (readLiteral rest).map fun ((value, code), more) => (('\'' :: value, code), more)
  | char :: rest => (readLiteral rest).map fun ((value, code), more) => ((char :: value, code), more)

end

/-- Text that stands for itself within quotes. -/
def Plain (text : List Char) : Prop :=
  '\'' ∉ text ∧ ¬ ['\\', '\\'] <:+: text ∧ text.getLast? ≠ some '\\'

instance (text : List Char) : Decidable (Plain text) := inferInstanceAs (Decidable (_ ∧ _ ∧ _))

variable {text rest code value : List Char} {more : List Literal} {char next : Char}

theorem plain_nil : Plain [] := ⟨nofun, by decide, nofun⟩

theorem plain_cons (notQuote : char ≠ '\'') (notBackslash : char ≠ '\\') :
    Plain (char :: text) ↔ Plain text := by
  cases text with
  | nil => simp [Plain, Ne.symm notQuote, notBackslash, List.infix_cons_iff]
  | cons next text =>
      simp [Plain, Ne.symm notQuote, List.infix_cons_iff, Ne.symm notBackslash]

theorem plain_escape (notQuote : next ≠ '\'') (notBackslash : next ≠ '\\') :
    Plain ('\\' :: next :: text) ↔ Plain text := by
  refine Iff.trans ?_ (plain_cons notQuote notBackslash)
  simp [Plain, List.infix_cons_iff, Ne.symm notBackslash]

theorem readCode_literal (noQuote : '\'' ∉ code) :
    readCode (code ++ '\'' :: rest) =
      (readLiteral rest).map fun (literal, more) => (code, literal :: more) := by
  induction code with
  | nil => rw [List.nil_append, readCode]
  | cons char code ih =>
      obtain ⟨other, later⟩ := not_or.mp fun member => noQuote (List.mem_cons.mpr member)
      rw [List.cons_append, readCode.eq_3 _ _ (fun same => other same.symm), ih later, Option.map_map]
      rfl

theorem readCode_literal_iff {literal : Literal} (noQuote : '\'' ∉ code) :
    readCode (code ++ '\'' :: rest) = some (code, literal :: more) ↔
      readLiteral rest = some (literal, more) := by
  rw [readCode_literal noQuote]
  simp [Option.map_eq_some_iff]

theorem readLiteral_char (notQuote : char ≠ '\'') (notBackslash : char ≠ '\\') :
    readLiteral (char :: rest) =
      (readLiteral rest).map fun ((value, code), more) => ((char :: value, code), more) :=
  readLiteral.eq_5 char rest notQuote (fun _ same => absurd same notBackslash)
    (fun _ same => absurd same notBackslash)

theorem readLiteral_escape (notQuote : next ≠ '\'') (notBackslash : next ≠ '\\') :
    readLiteral ('\\' :: next :: rest) =
      (readLiteral rest).map fun ((value, code), more) => (('\\' :: next :: value, code), more) := by
  rw [readLiteral.eq_5 '\\' (next :: rest) (by decide)
      (fun _ _ same => notBackslash (List.cons.inj same).1)
      (fun _ _ same => notQuote (List.cons.inj same).1),
    readLiteral_char notQuote notBackslash, Option.map_map]
  rfl

/-- Induction over text as the reading of a literal takes it apart. -/
theorem literal_induction {motive : List Char → Prop} (text : List Char) (nil : motive [])
    (quote : ∀ rest, motive ('\'' :: rest))
    (last : motive ['\\']) (escapedQuote : ∀ rest, motive ('\\' :: '\'' :: rest))
    (backslashes : ∀ rest, motive rest → motive ('\\' :: '\\' :: rest))
    (escape : ∀ next rest, next ≠ '\'' → next ≠ '\\' → motive rest → motive ('\\' :: next :: rest))
    (plain : ∀ char rest, char ≠ '\'' → char ≠ '\\' → motive rest → motive (char :: rest)) :
    motive text := by
  induction size : text.length using Nat.strong_induction_on generalizing text with
  | h length ih =>
      cases text with
      | nil => exact nil
      | cons char rest =>
          by_cases isQuote : char = '\''
          · subst isQuote
            exact quote rest
          by_cases isBackslash : char = '\\'
          · subst isBackslash
            cases rest with
            | nil => exact last
            | cons next rest =>
                have later : motive rest :=
                  ih rest.length (by rw [← size]; simp only [List.length_cons]; omega) rest rfl
                by_cases nextQuote : next = '\''
                · subst nextQuote
                  exact escapedQuote rest
                by_cases nextBackslash : next = '\\'
                · subst nextBackslash
                  exact backslashes rest later
                exact escape next rest nextQuote nextBackslash later
          have later : motive rest :=
            ih rest.length (by rw [← size]; simp only [List.length_cons]; omega) rest rfl
          exact plain char rest isQuote isBackslash later

/-- A value that has fallen behind its text by a backslash never catches up. -/
theorem value_ne_behind (count : Nat)
    (read : readLiteral (text ++ '\'' :: rest) = some ((value, code), more)) :
    value ≠ List.replicate (count + 1) '\\' ++ text := by
  induction text using literal_induction generalizing value count with
  | nil =>
      rw [List.nil_append, readLiteral] at read
      obtain ⟨⟨_, _⟩, _, same⟩ := Option.map_eq_some_iff.mp read
      cases same
      nofun
  | quote later =>
      rw [List.cons_append, readLiteral] at read
      obtain ⟨⟨_, _⟩, _, same⟩ := Option.map_eq_some_iff.mp read
      cases same
      nofun
  | last =>
      rw [List.cons_append, List.nil_append, readLiteral] at read
      obtain ⟨⟨⟨_, _⟩, _⟩, _, same⟩ := Option.map_eq_some_iff.mp read
      cases same
      exact fun same => absurd (List.cons.inj same).1 (by decide)
  | escapedQuote later =>
      rw [List.cons_append, List.cons_append, readLiteral] at read
      obtain ⟨⟨⟨_, _⟩, _⟩, _, same⟩ := Option.map_eq_some_iff.mp read
      cases same
      exact fun same => absurd (List.cons.inj same).1 (by decide)
  | backslashes later ih =>
      rw [List.cons_append, List.cons_append, readLiteral] at read
      obtain ⟨⟨⟨inner, _⟩, _⟩, inside, same⟩ := Option.map_eq_some_iff.mp read
      cases same
      intro same
      refine ih (count + 1) inside ?_
      have tail : inner = List.replicate count '\\' ++ '\\' :: '\\' :: later := (List.cons.inj same).2
      rw [tail, List.replicate_succ', List.replicate_succ', List.append_assoc, List.append_assoc]
      rfl
  | escape next later notQuote notBackslash ih =>
      rw [List.cons_append, List.cons_append, readLiteral_escape notQuote notBackslash] at read
      obtain ⟨⟨⟨inner, _⟩, _⟩, inside, same⟩ := Option.map_eq_some_iff.mp read
      cases same
      intro same
      have tail : next :: inner = List.replicate count '\\' ++ '\\' :: next :: later :=
        (List.cons.inj same).2
      cases count with
      | zero => exact notBackslash (List.cons.inj tail).1
      | succ count => exact notBackslash (List.cons.inj tail).1
  | plain char later notQuote notBackslash ih =>
      rw [List.cons_append, readLiteral_char notQuote notBackslash] at read
      obtain ⟨⟨⟨inner, _⟩, _⟩, inside, same⟩ := Option.map_eq_some_iff.mp read
      cases same
      exact fun same => notBackslash (List.cons.inj same).1

/-- A literal has the text between its quotes for its value exactly when that is
plain text; then it ends where it is meant to. -/
theorem readLiteral_iff :
    readLiteral (text ++ '\'' :: rest) = some ((text, code), more) ↔
      Plain text ∧ readCode rest = some (code, more) := by
  induction text using literal_induction with
  | nil =>
      rw [List.nil_append, readLiteral]
      simp only [plain_nil, true_and, Option.map_eq_some_iff, Prod.mk.injEq, Prod.exists,
        ↓existsAndEq, and_true]
  | quote later =>
      have notPlain : ¬ Plain ('\'' :: later) := fun plain => plain.1 (by simp)
      simp only [notPlain, false_and, iff_false]
      rw [List.cons_append, readLiteral]
      intro read
      obtain ⟨⟨_, _⟩, _, same⟩ := Option.map_eq_some_iff.mp read
      cases same
  | last =>
      have notPlain : ¬ Plain ['\\'] := by decide
      simp only [notPlain, false_and, iff_false]
      rw [List.cons_append, List.nil_append, readLiteral]
      intro read
      obtain ⟨⟨⟨_, _⟩, _⟩, _, same⟩ := Option.map_eq_some_iff.mp read
      simp at same
  | escapedQuote later =>
      have notPlain : ¬ Plain ('\\' :: '\'' :: later) := fun plain => plain.1 (by simp)
      simp only [notPlain, false_and, iff_false]
      rw [List.cons_append, List.cons_append, readLiteral]
      intro read
      obtain ⟨⟨⟨_, _⟩, _⟩, _, same⟩ := Option.map_eq_some_iff.mp read
      simp at same
  | backslashes later ih =>
      have notPlain : ¬ Plain ('\\' :: '\\' :: later) := fun plain =>
        plain.2.1 (List.prefix_append ['\\', '\\'] later).isInfix
      simp only [notPlain, false_and, iff_false]
      rw [List.cons_append, List.cons_append, readLiteral]
      intro read
      obtain ⟨⟨⟨inner, _⟩, _⟩, inside, same⟩ := Option.map_eq_some_iff.mp read
      simp only [Prod.mk.injEq, List.cons.injEq, true_and] at same
      exact value_ne_behind 0 inside same.1.1
  | escape next later notQuote notBackslash ih =>
      rw [plain_escape notQuote notBackslash, ← ih, List.cons_append, List.cons_append,
        readLiteral_escape notQuote notBackslash]
      simp [Option.map_eq_some_iff]
  | plain char later notQuote notBackslash ih =>
      rw [plain_cons notQuote notBackslash, ← ih, List.cons_append,
        readLiteral_char notQuote notBackslash]
      simp [Option.map_eq_some_iff]

end Tebako.Data.QuotedLiteral
