import Tebako.PackageDescriptor

namespace Tebako

open Data

/-! Headers written on one host and read on another.

The numbers of a header are copied as they lie in memory. The functions of the
class that convert them, to the order the header is meant to have, are not
called for it. -/

namespace ByteOrder

variable (order : ByteOrder)

/-- `is_little_endian`: the byte at the address of the number 1. -/
def isLittleEndian : Bool := (order.bytes 1).head? = some 1

def converted (value : UInt16) : UInt16 := (value >>> 8) ||| (value <<< 8)

def toLittleEndian (value : UInt16) : UInt16 :=
  if order.isLittleEndian then value else converted value

def fromLittleEndian (value : UInt16) : UInt16 :=
  if order.isLittleEndian then value else converted value

/-- A number that reads the same from both ends. -/
def Palindromic (value : UInt16) : Prop := value.toNat / 256 = value.toNat % 256

variable {order} {other : ByteOrder} {value : UInt16}

theorem converted_toNat (value : UInt16) :
    (converted value).toNat = value.toNat / 256 + value.toNat % 256 * 256 := by
  have range := value.toNat_lt
  have high : (value >>> 8).toNat = value.toNat / 256 := by
    rw [UInt16.toNat_shiftRight, Nat.shiftRight_eq_div_pow]
    rfl
  have low : (value <<< 8).toNat = value.toNat % 256 * 2 ^ 8 := by
    rw [UInt16.toNat_shiftLeft, Nat.shiftLeft_eq]
    change value.toNat * 2 ^ 8 % 2 ^ 16 = _
    omega
  rw [converted, UInt16.toNat_or, high, low, Nat.or_comm, ← Nat.shiftLeft_eq,
    ← Nat.shiftLeft_add_eq_or_of_lt (by omega), Nat.shiftLeft_eq, Nat.add_comm]

theorem converted_parts (value : UInt16) :
    (converted value).toNat / 256 = value.toNat % 256 ∧
      (converted value).toNat % 256 = value.toNat / 256 := by
  have range := value.toNat_lt
  have small : value.toNat / 256 < 256 := by omega
  rw [converted_toNat, Nat.add_mul_div_right _ _ (by decide), Nat.add_mul_mod_self_right,
    Nat.div_eq_of_lt small, Nat.mod_eq_of_lt small, Nat.zero_add]
  exact ⟨rfl, rfl⟩

/-- The conversion before the copy makes the bytes the same on every host. -/
theorem bytes_toLittleEndian (order : ByteOrder) (value : UInt16) :
    order.bytes (order.toLittleEndian value) = little.bytes value := by
  cases order with
  | little => rfl
  | big =>
      obtain ⟨high, low⟩ := converted_parts value
      have range := value.toNat_lt
      have first : UInt8.ofNat ((converted value).toNat / 256) = UInt8.ofNat value.toNat := by
        rw [← UInt8.toNat_inj, UInt8.toNat_ofNat', UInt8.toNat_ofNat', high, Nat.mod_mod]
      have second : UInt8.ofNat (converted value).toNat = UInt8.ofNat (value.toNat / 256) := by
        rw [← UInt8.toNat_inj, UInt8.toNat_ofNat', UInt8.toNat_ofNat', low,
          Nat.mod_eq_of_lt (by omega)]
      change [_, _] = [_, _]
      rw [← first, ← second]
      rfl

/-- The conversion after the copy takes them back. -/
theorem fromLittleEndian_word (order : ByteOrder) (value : UInt16) :
    order.fromLittleEndian (order.word (little.bytes value)) = value := by
  rw [← bytes_toLittleEndian order, word_bytes]
  cases order with
  | little => rfl
  | big =>
      obtain ⟨high, low⟩ := converted_parts value
      apply UInt16.toNat.inj
      change (converted (converted value)).toNat = _
      rw [converted_toNat, high, low]
      omega

theorem bytes_eq_iff : order.bytes value = other.bytes value ↔ order = other ∨ Palindromic value := by
  have range := value.toNat_lt
  have swap : UInt8.ofNat value.toNat = UInt8.ofNat (value.toNat / 256) ↔ Palindromic value := by
    rw [← UInt8.toNat_inj, UInt8.toNat_ofNat', UInt8.toNat_ofNat', Palindromic]
    omega
  cases order <;> cases other
  · simp
  · simp only [bytes, List.cons.injEq, and_true, swap, reduceCtorEq, false_or, eq_comm, and_self]
  · simp only [bytes, List.cons.injEq, and_true, swap, reduceCtorEq, false_or, eq_comm, and_self]
  · simp

end ByteOrder

namespace PackageDescriptor

open ByteOrder

/-- What the header of a package holds in sixteen bits. -/
def numbers (d : PackageDescriptor) : List UInt16 :=
  [d.rubyVersionMajor, d.rubyVersionMinor, d.rubyVersionPatch, d.tebakoVersionMajor,
    d.tebakoVersionMinor, d.tebakoVersionPatch, UInt16.ofNat d.mountPoint.length,
    UInt16.ofNat d.entryPoint.length] ++ (d.cwd.map fun cwd => UInt16.ofNat cwd.length).toList

/-- The lengths of the strings can be represented. -/
def Representable (d : PackageDescriptor) : Prop :=
  Fits d.mountPoint ∧ Fits d.entryPoint ∧ ∀ cwd, d.cwd = some cwd → Fits cwd

variable {first second : ByteOrder} {d : PackageDescriptor}

theorem serialize_eq (same : ∀ number ∈ d.numbers, first.bytes number = second.bytes number) :
    d.serialize first = d.serialize second := by
  simp only [numbers, List.mem_append, List.mem_cons, List.not_mem_nil, or_false, or_imp,
    forall_and, forall_eq] at same
  obtain ⟨⟨rubyMajor, rubyMinor, rubyPatch, tebakoMajor, tebakoMinor, tebakoPatch, mountPoint,
    entryPoint⟩, cwd⟩ := same
  cases known : d.cwd with
  | none =>
      simp only [serialize, appendString, known, rubyMajor, rubyMinor, rubyPatch, tebakoMajor,
        tebakoMinor, tebakoPatch, mountPoint, entryPoint]
  | some text =>
      have last := cwd (UInt16.ofNat text.length) (by simp [known])
      simp only [serialize, appendString, known, rubyMajor, rubyMinor, rubyPatch, tebakoMajor,
        tebakoMinor, tebakoPatch, mountPoint, entryPoint, last]

theorem bytes_split {value other : UInt16} {rest rest' : List UInt8}
    (same : first.bytes value ++ rest = second.bytes other ++ rest') :
    first.bytes value = second.bytes other ∧ rest = rest' :=
  List.append_inj same (by rw [bytes_length, bytes_length])

theorem sized_split {text : List UInt8} {rest rest' : List UInt8}
    (same : sized first text ++ rest = sized second text ++ rest') :
    first.bytes (UInt16.ofNat text.length) = second.bytes (UInt16.ofNat text.length) ∧
      rest = rest' := by
  simp only [sized, List.append_assoc] at same
  obtain ⟨size, same⟩ := bytes_split same
  exact ⟨size, List.append_cancel_left same⟩

/-- Bytes that begin with a header in both orders have the same numbers in both. -/
theorem bytes_eq_of_headers {header other suffix suffix' : List UInt8}
    (encoded : IsHeader first d header) (also : IsHeader second d other)
    (same : header ++ suffix = other ++ suffix') :
    ∀ number ∈ d.numbers, first.bytes number = second.bytes number := by
  obtain ⟨_, _, last, cwd, rfl⟩ := encoded
  obtain ⟨_, _, last', cwd', rfl⟩ := also
  simp only [List.append_assoc] at same
  replace same := List.append_cancel_left same
  obtain ⟨rubyMajor, same⟩ := bytes_split same
  obtain ⟨rubyMinor, same⟩ := bytes_split same
  obtain ⟨rubyPatch, same⟩ := bytes_split same
  obtain ⟨tebakoMajor, same⟩ := bytes_split same
  obtain ⟨tebakoMinor, same⟩ := bytes_split same
  obtain ⟨tebakoPatch, same⟩ := bytes_split same
  obtain ⟨mountPoint, same⟩ := sized_split same
  obtain ⟨entryPoint, same⟩ := sized_split same
  have size : ∀ text, d.cwd = some text →
      first.bytes (UInt16.ofNat text.length) = second.bytes (UInt16.ofNat text.length) := by
    intro text known
    rw [known] at cwd cwd'
    cases cwd with
    | present _ _ =>
        cases cwd' with
        | present _ _ => exact (sized_split (List.cons.inj same).2).1
  simp only [numbers, List.mem_append, List.mem_cons, List.not_mem_nil, or_false, or_imp,
    forall_and, forall_eq, Option.mem_toList, Option.map_eq_some_iff]
  refine ⟨⟨rubyMajor, rubyMinor, rubyPatch, tebakoMajor, tebakoMinor, tebakoPatch, mountPoint,
    entryPoint⟩, ?_⟩
  intro number ⟨text, known, exact⟩
  rw [← exact]
  exact size text known

theorem serialize_isHeader_of_representable (order : ByteOrder) (representable : d.Representable) :
    IsHeader order d (d.serialize order) := by
  have encoded := serialize_isHeader order d
  rwa [shortened_eq_iff.mpr representable] at encoded

theorem palindromic_of_bytes (same : ∀ number ∈ d.numbers, first.bytes number = second.bytes number) :
    first = second ∨ ∀ number ∈ d.numbers, Palindromic number := by
  by_cases order : first = second
  · exact .inl order
  · exact .inr fun number member => (bytes_eq_iff.mp (same number member)).resolve_left order

theorem serialize_eq_of_palindromic
    (palindromic : first = second ∨ ∀ number ∈ d.numbers, Palindromic number) :
    d.serialize first = d.serialize second := by
  refine serialize_eq fun number member => bytes_eq_iff.mpr ?_
  exact palindromic.imp_right fun all => all number member

theorem deserialize_elsewhere (representable : d.Representable) (image : List UInt8) :
    (deserialize second (.ofList (d.serialize first ++ image))).result = .ok d ↔
      first = second ∨ ∀ number ∈ d.numbers, Palindromic number := by
  constructor
  · intro accepted
    obtain ⟨header, suffix, encoded, whole⟩ := header_of_accepted accepted
    rw [Buffer.ofList_bytes] at whole
    exact palindromic_of_bytes (bytes_eq_of_headers
      (serialize_isHeader_of_representable first representable) encoded whole)
  · intro palindromic
    rw [serialize_eq_of_palindromic palindromic, deserialize_serialize,
      shortened_eq_iff.mpr representable]

/-- Another host reads back what was written, and a header is the same as on a
host of little-endian order, exactly for hosts of the same order and for numbers
that both orders write the same. -/
theorem header_byteOrder_iff (first second : ByteOrder) (d : PackageDescriptor) (image : List UInt8)
    (representable : d.Representable) :
    ((deserialize second (.ofList (d.serialize first ++ image))).result = .ok d ↔
      first = second ∨ ∀ number ∈ d.numbers, Palindromic number) ∧
    (d.serialize first = d.serialize .little ↔
      first = .little ∨ ∀ number ∈ d.numbers, Palindromic number) := by
  refine ⟨deserialize_elsewhere representable image, ?_, serialize_eq_of_palindromic⟩
  intro same
  exact palindromic_of_bytes (@bytes_eq_of_headers first .little d _ _ [] []
    (serialize_isHeader_of_representable first representable)
    (serialize_isHeader_of_representable .little representable) (by rw [same]))

/-- A package for version 3.3.7, its mount point and its entry point. -/
def simplePackage : PackageDescriptor := ⟨3, 3, 7, 0, 8, 1, [47, 109], [47, 97, 46, 114, 98], none⟩

theorem simplePackage_representable : simplePackage.Representable :=
  ⟨by rw [Fits]; decide, by rw [Fits]; decide, fun _ absent => nomatch absent⟩

theorem simplePackage_elsewhere :
    ((deserialize .little (.ofList (simplePackage.serialize .big ++ []))).result = .ok simplePackage ↔
      .big = ByteOrder.little ∨ ∀ number ∈ simplePackage.numbers, Palindromic number) ∧
    (simplePackage.serialize .big = simplePackage.serialize .little ↔
      .big = ByteOrder.little ∨ ∀ number ∈ simplePackage.numbers, Palindromic number) :=
  header_byteOrder_iff .big .little simplePackage [] simplePackage_representable

/-- Version 3.3.7 from a big-endian host is another one on a little-endian host. -/
theorem simplePackage_misread :
    (¬ ∀ (first second : ByteOrder) (d : PackageDescriptor), d.Representable →
      (deserialize second (.ofList (d.serialize first))).result = .ok d) ∧
    ¬ ∀ (order : ByteOrder) (d : PackageDescriptor), d.Representable →
      d.serialize order = d.serialize .little := by
  constructor
  · intro always
    have back := always .big .little simplePackage simplePackage_representable
    rw [← List.append_nil (simplePackage.serialize .big),
      deserialize_elsewhere simplePackage_representable] at back
    rcases back with same | palindromic
    · exact absurd same (by decide)
    · have third := palindromic 3 (by decide)
      rw [Palindromic] at third
      exact absurd third (by decide)
  · intro always
    exact absurd (always .big simplePackage simplePackage_representable) (by decide)

end PackageDescriptor

end Tebako
