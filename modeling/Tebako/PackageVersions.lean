import Tebako.Common
import Tebako.Data.TextStream
import Tebako.PackageDescriptor

namespace Tebako

open Data Data.TextStream

/-! The version texts of a package: what the constructor of a descriptor takes for one. -/

namespace PackageDescriptor

/-- What the C++ standard makes of the digits after a minus sign: the value is
negated in 64 bits before it is compared with the limit. -/
def standardNegated (value : Nat) : Option Nat :=
  if 2 ^ 64 ≤ value then none
  else if (2 ^ 64 - value) % 2 ^ 64 ≤ 65535 then some ((2 ^ 64 - value) % 2 ^ 64) else none

section Construction

/-! `negated` is what the library makes of a minus sign; libraries differ from the
standard there. -/

variable (negated : Nat → Option Nat)

/-- The extractions of `parse_version`: three numbers, and what `dot` holds in the end. -/
def readVersion (version : Str) : Option (UInt16 × UInt16 × UInt16 × Char) := do
  let (major, text) ← extractUnsigned 65535 negated version
  let (_, text) ← extractChar text
  let (minor, text) ← extractUnsigned 65535 negated text
  let (dot, text) ← extractChar text
  let (patch, _) ← extractUnsigned 65535 negated text
  return (UInt16.ofNat major, UInt16.ofNat minor, UInt16.ofNat patch, dot)

def parseVersion (version : Str) : Except PackageError (UInt16 × UInt16 × UInt16) :=
  match readVersion negated version with
  | none => .error (.invalidArgument ("Invalid version format: " ++ String.ofList version))
  | some (major, minor, patch, dot) =>
      if dot ≠ '.' then .error (.invalidArgument ("Invalid version format: " ++ String.ofList version))
      else .ok (major, minor, patch)

def ofVersions (rubyVersion tebakoVersion : Str) (mountPoint entryPoint : List UInt8)
    (cwd : Option (List UInt8)) : Except PackageError PackageDescriptor := do
  let (rubyVersionMajor, rubyVersionMinor, rubyVersionPatch) ← parseVersion negated rubyVersion
  let (tebakoVersionMajor, tebakoVersionMinor, tebakoVersionPatch) ← parseVersion negated tebakoVersion
  return ⟨rubyVersionMajor, rubyVersionMinor, rubyVersionPatch, tebakoVersionMajor,
    tebakoVersionMinor, tebakoVersionPatch, mountPoint, entryPoint, cwd⟩

end Construction

/-! ## The two grammars -/

/-- A decimal number that a version field can hold. -/
structure IsField (digits : Str) (value : Nat) : Prop where
  nonempty : digits ≠ []
  isDigit : ∀ digit ∈ digits, digit.isDigit = true
  denotes : decimal digits = value
  range : value ≤ 65535

/-- Three numbers separated by dots, and whatever follows the last digit. -/
def IsVersion (version : Str) (major minor patch : Nat) : Prop :=
  ∃ first second third rest, IsField first major ∧ IsField second minor ∧ IsField third patch ∧
    (∀ next, rest.head? = some next → next.isDigit = false) ∧
    version = first ++ '.' :: (second ++ '.' :: (third ++ rest))

/-- Three numbers, each with blanks and a sign before it; between the first two any
character that is not blank, between the others a dot. -/
def IsLooseVersion (negated : Nat → Option Nat) (version : Str) (major minor patch : Nat) : Prop :=
  ∃ separator first second third fourth rest, IsNumber 65535 negated version major first ∧
    IsChar first separator second ∧ IsNumber 65535 negated second minor third ∧
    IsChar third '.' fourth ∧ IsNumber 65535 negated fourth patch rest

def HasVersion (version : Str) : Prop := ∃ major minor patch, IsVersion version major minor patch

def HasLooseVersion (negated : Nat → Option Nat) (version : Str) : Prop :=
  ∃ major minor patch, IsLooseVersion negated version major minor patch

/-- Both texts are versions, and the fields are their numbers; or one of them is
none, and the constructor throws. -/
def VersionsRead (rubyVersion tebakoVersion : Str) : Except PackageError PackageDescriptor → Prop
  | .ok d =>
      IsVersion rubyVersion d.rubyVersionMajor.toNat d.rubyVersionMinor.toNat d.rubyVersionPatch.toNat ∧
      IsVersion tebakoVersion d.tebakoVersionMajor.toNat d.tebakoVersionMinor.toNat
        d.tebakoVersionPatch.toNat
  | .error failure =>
      (∃ what, failure = .invalidArgument what) ∧ ¬ (HasVersion rubyVersion ∧ HasVersion tebakoVersion)

section Versions

variable {negated : Nat → Option Nat} {version rubyVersion tebakoVersion digits rest : Str}
variable {value major minor patch : Nat} {numbers : UInt16 × UInt16 × UInt16} {failure : PackageError}

theorem IsField.isNumber (field : IsField digits value)
    (ended : ∀ next, rest.head? = some next → next.isDigit = false) :
    IsNumber 65535 negated (digits ++ rest) value rest := by
  obtain ⟨nonempty, isDigit, rfl, range⟩ := field
  refine ⟨[], false, [], digits, nofun, .inl rfl, ⟨nonempty, isDigit, ended⟩, ?_, rfl⟩
  simp only [number, nonempty, range, ↓reduceIte, Bool.false_eq_true]

theorem isChar_cons {char : Char} (plain : isBlank char = false) : IsChar (char :: rest) char rest :=
  ⟨[], nofun, plain, rfl⟩

theorem IsVersion.isLooseVersion (isVersion : IsVersion version major minor patch) :
    IsLooseVersion negated version major minor patch := by
  obtain ⟨first, second, third, rest, isMajor, isMinor, isPatch, ended, rfl⟩ := isVersion
  have dotEnds (rest : Str) : ∀ next, ('.' :: rest).head? = some next → next.isDigit = false := by
    intro next head
    cases head
    decide
  exact ⟨'.', _, _, _, _, rest, isMajor.isNumber (dotEnds _), isChar_cons (by decide),
    isMinor.isNumber (dotEnds _), isChar_cons (by decide), isPatch.isNumber ended⟩

theorem IsVersion.range (isVersion : IsVersion version major minor patch) :
    major ≤ 65535 ∧ minor ≤ 65535 ∧ patch ≤ 65535 := by
  obtain ⟨_, _, _, _, isMajor, isMinor, isPatch, _⟩ := isVersion
  exact ⟨isMajor.range, isMinor.range, isPatch.range⟩

theorem parseVersion_of_loose (loose : IsLooseVersion negated version major minor patch) :
    parseVersion negated version = .ok (UInt16.ofNat major, UInt16.ofNat minor, UInt16.ofNat patch) := by
  obtain ⟨separator, first, second, third, fourth, rest, isMajor, isSeparator, isMinor, isDot,
    isPatch⟩ := loose
  have read : readVersion negated version =
      some (UInt16.ofNat major, UInt16.ofNat minor, UInt16.ofNat patch, '.') := by
    simp only [readVersion, extractUnsigned_iff.mpr isMajor, extractChar_iff.mpr isSeparator,
      extractUnsigned_iff.mpr isMinor, extractChar_iff.mpr isDot, extractUnsigned_iff.mpr isPatch,
      Option.bind_eq_bind, Option.bind_some]
    rfl
  simp only [parseVersion, read, ne_eq, not_true_eq_false, ↓reduceIte]

theorem loose_of_parseVersion (parsed : parseVersion negated version = .ok numbers) :
    HasLooseVersion negated version := by
  cases read : readVersion negated version with
  | none =>
      rw [parseVersion, read] at parsed
      cases parsed
  | some fields =>
      obtain ⟨_, _, _, dot⟩ := fields
      have isDot : dot = '.' := by
        by_contra other
        simp only [parseVersion, read, ne_eq, other, not_false_eq_true, ↓reduceIte] at parsed
        cases parsed
      subst isDot
      simp only [readVersion, Option.bind_eq_bind, Option.bind_eq_some_iff, Prod.exists] at read
      obtain ⟨major, first, isMajor, separator, second, isSeparator, minor, third, isMinor, dot, fourth,
        isDot, patch, rest, isPatch, same⟩ := read
      cases same
      exact ⟨major, minor, patch, separator, first, second, third, fourth, rest,
        extractUnsigned_iff.mp isMajor, extractChar_iff.mp isSeparator, extractUnsigned_iff.mp isMinor,
        extractChar_iff.mp isDot, extractUnsigned_iff.mp isPatch⟩

theorem parseVersion_error (failed : parseVersion negated version = .error failure) :
    (∃ what, failure = .invalidArgument what) ∧ ¬ HasLooseVersion negated version := by
  refine ⟨?_, fun loose => ?_⟩
  · simp only [parseVersion] at failed
    split at failed
    · cases failed
      exact ⟨_, rfl⟩
    · split at failed
      · cases failed
        exact ⟨_, rfl⟩
      · cases failed
  · obtain ⟨major, minor, patch, loose⟩ := loose
    rw [parseVersion_of_loose loose] at failed
    cases failed

theorem HasVersion.loose (has : HasVersion version) : HasLooseVersion negated version := by
  obtain ⟨major, minor, patch, isVersion⟩ := has
  exact ⟨major, minor, patch, isVersion.isLooseVersion⟩

/-- The numbers of a version are the ones that are parsed from it. -/
theorem isVersion_of_parsed {major minor patch : UInt16} (has : HasVersion version)
    (parsed : parseVersion negated version = .ok (major, minor, patch)) :
    IsVersion version major.toNat minor.toNat patch.toNat := by
  obtain ⟨first, second, third, isVersion⟩ := has
  obtain ⟨firstRange, secondRange, thirdRange⟩ := isVersion.range
  rw [parseVersion_of_loose isVersion.isLooseVersion] at parsed
  cases parsed
  rwa [UInt16.toNat_ofNat_of_lt' (Nat.lt_succ_of_le firstRange),
    UInt16.toNat_ofNat_of_lt' (Nat.lt_succ_of_le secondRange),
    UInt16.toNat_ofNat_of_lt' (Nat.lt_succ_of_le thirdRange)]

/-- Versions are parsed by their grammar exactly when no pair of texts that reads as
two of them with blanks, signs and any first separator is anything else. -/
theorem ofVersions_iff (negated : Nat → Option Nat) (rubyVersion tebakoVersion : Str)
    (mountPoint entryPoint : List UInt8) (cwd : Option (List UInt8)) :
    VersionsRead rubyVersion tebakoVersion
        (ofVersions negated rubyVersion tebakoVersion mountPoint entryPoint cwd) ↔
      (HasLooseVersion negated rubyVersion ∧ HasLooseVersion negated tebakoVersion →
        HasVersion rubyVersion ∧ HasVersion tebakoVersion) := by
  cases ruby : parseVersion negated rubyVersion with
  | error failure =>
      obtain ⟨invalid, none⟩ := parseVersion_error ruby
      have thrown : ofVersions negated rubyVersion tebakoVersion mountPoint entryPoint cwd =
          .error failure := by
        rw [ofVersions, ruby]
        rfl
      rw [thrown]
      exact ⟨fun _ loose => absurd loose.1 none, fun _ => ⟨invalid, fun has => none has.1.loose⟩⟩
  | ok rubyNumbers =>
      cases tebako : parseVersion negated tebakoVersion with
      | error failure =>
          obtain ⟨invalid, none⟩ := parseVersion_error tebako
          have thrown : ofVersions negated rubyVersion tebakoVersion mountPoint entryPoint cwd =
              .error failure := by
            rw [ofVersions, ruby, tebako]
            rfl
          rw [thrown]
          exact ⟨fun _ loose => absurd loose.2 none, fun _ => ⟨invalid, fun has => none has.2.loose⟩⟩
      | ok tebakoNumbers =>
          have loose := And.intro (loose_of_parseVersion ruby) (loose_of_parseVersion tebako)
          obtain ⟨rubyMajor, rubyMinor, rubyPatch⟩ := rubyNumbers
          obtain ⟨tebakoMajor, tebakoMinor, tebakoPatch⟩ := tebakoNumbers
          have made : ofVersions negated rubyVersion tebakoVersion mountPoint entryPoint cwd =
              .ok ⟨rubyMajor, rubyMinor, rubyPatch, tebakoMajor, tebakoMinor, tebakoPatch, mountPoint,
                entryPoint, cwd⟩ := by
            rw [ofVersions, ruby, tebako]
            rfl
          rw [made]
          constructor
          · intro read _
            exact ⟨⟨_, _, _, read.1⟩, ⟨_, _, _, read.2⟩⟩
          · intro plain
            obtain ⟨hasRuby, hasTebako⟩ := plain loose
            exact ⟨isVersion_of_parsed hasRuby ruby, isVersion_of_parsed hasTebako tebako⟩

theorem HasVersion.dot (has : HasVersion version) :
    (version.dropWhile Char.isDigit).head? = some '.' := by
  obtain ⟨_, _, _, first, _, _, _, isMajor, _, _, _, rfl⟩ := has
  rw [List.dropWhile_append_of_pos isMajor.isDigit, List.dropWhile_cons_of_neg (by decide)]
  rfl

/-- `3x1.2` is taken for version 3.1.2. -/
theorem wrong_separator_accepted :
    ¬ ∀ (rubyVersion tebakoVersion : Str) (mountPoint entryPoint : List UInt8)
      (cwd : Option (List UInt8)), VersionsRead rubyVersion tebakoVersion
        (ofVersions standardNegated rubyVersion tebakoVersion mountPoint entryPoint cwd) := by
  intro always
  have read := always ['3', 'x', '1', '.', '2'] ['0', '.', '8', '.', '1'] [] [] none
  have made : ofVersions standardNegated ['3', 'x', '1', '.', '2'] ['0', '.', '8', '.', '1'] [] [] none =
      .ok ⟨3, 1, 2, 0, 8, 1, [], [], none⟩ := by decide +kernel
  rw [made] at read
  have dot := HasVersion.dot ⟨_, _, _, read.1⟩
  exact absurd dot (by decide)

end Versions

end PackageDescriptor

end Tebako
