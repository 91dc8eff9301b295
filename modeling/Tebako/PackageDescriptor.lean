import Mathlib.Data.UInt
import Tebako.Data.Reader

namespace Tebako

open Data

/-! The header of an application package: its serialization and its parser.

A header is the signature, six version fields, two or three strings with their
lengths before them, and a flag that tells whether there is the third one. -/

/-- The order in which a host keeps the bytes of a number in memory. -/
inductive ByteOrder where
  | little | big
deriving Repr, DecidableEq

namespace ByteOrder

/-- A `uint16_t` as `memcpy` takes it from memory. -/
def bytes (order : ByteOrder) (value : UInt16) : List UInt8 :=
  let low := UInt8.ofNat value.toNat
  let high := UInt8.ofNat (value.toNat / 256)
  match order with
  | .little => [low, high]
  | .big => [high, low]

/-- A `uint16_t` that `memcpy` has filled with two bytes. -/
def word (order : ByteOrder) : List UInt8 → UInt16
  | [first, second] =>
      match order with
      | .little => UInt16.ofNat (first.toNat + 256 * second.toNat)
      | .big => UInt16.ofNat (second.toNat + 256 * first.toNat)
  | _ => 0

variable {order : ByteOrder}

@[simp] theorem bytes_length (value : UInt16) : (order.bytes value).length = 2 := by
  cases order <;> rfl

theorem word_bytes (value : UInt16) : order.word (order.bytes value) = value := by
  have bound := value.toNat_lt
  apply UInt16.toNat.inj
  cases order <;>
    simp only [bytes, word, UInt8.toNat_ofNat', UInt16.toNat_ofNat'] <;>
    omega

private theorem low_high (low high : UInt8) :
    UInt8.ofNat (UInt16.ofNat (low.toNat + 256 * high.toNat)).toNat = low ∧
      UInt8.ofNat ((UInt16.ofNat (low.toNat + 256 * high.toNat)).toNat / 256) = high := by
  have lowBound := low.toNat_lt
  have highBound := high.toNat_lt
  constructor <;>
    apply UInt8.toNat.inj <;>
    simp only [UInt8.toNat_ofNat', UInt16.toNat_ofNat'] <;>
    omega

theorem bytes_word {pair : List UInt8} (two : pair.length = 2) :
    order.bytes (order.word pair) = pair := by
  match pair, two with
  | [first, second], _ =>
      cases order with
      | little =>
          obtain ⟨low, high⟩ := low_high first second
          simp only [bytes, word, low, high]
      | big =>
          obtain ⟨low, high⟩ := low_high second first
          simp only [bytes, word, low, high]

end ByteOrder

inductive PackageError where
  | invalidArgument (what : String)
  | outOfRange (what : String)
deriving Repr, DecidableEq

def PackageError.IsOutOfRange (failure : PackageError) : Prop := ∃ what, failure = .outOfRange what

structure PackageDescriptor where
  rubyVersionMajor : UInt16
  rubyVersionMinor : UInt16
  rubyVersionPatch : UInt16
  tebakoVersionMajor : UInt16
  tebakoVersionMinor : UInt16
  tebakoVersionPatch : UInt16
  mountPoint : List UInt8
  entryPoint : List UInt8
  cwd : Option (List UInt8)
deriving Repr, DecidableEq

namespace PackageDescriptor

/-- `TAMATEBAKO` -/
def signature : List UInt8 := [84, 65, 77, 65, 84, 69, 66, 65, 75, 79]

variable (order : ByteOrder)

/-! ## Serialization -/

/-- A string with its size, converted to `uint16_t`, before it. -/
def appendString (text : List UInt8) : List UInt8 :=
  let size := UInt16.ofNat text.length
  order.bytes size ++ text.take size.toNat

def serialize (d : PackageDescriptor) : List UInt8 :=
  signature ++ order.bytes d.rubyVersionMajor ++ order.bytes d.rubyVersionMinor ++
    order.bytes d.rubyVersionPatch ++ order.bytes d.tebakoVersionMajor ++
    order.bytes d.tebakoVersionMinor ++ order.bytes d.tebakoVersionPatch ++
    appendString order d.mountPoint ++ appendString order d.entryPoint ++
    match d.cwd with
    | none => [0]
    | some cwd => 1 :: appendString order cwd

/-! ## Deserialization -/

section Deserialization

variable (buffer : Buffer)

def readFromBuffer (size : Nat) : Reader PackageError (List UInt8) := do
  if ← Reader.fits buffer size then
    let data ← Reader.look buffer size
    Reader.advance size
    return data
  else throw (.outOfRange "Buffer too short for deserialization")

def readSignature : Reader PackageError Unit := do
  if ← Reader.fits buffer signature.length then
    if (← Reader.look buffer signature.length) = signature then
      Reader.advance signature.length
    else throw (.invalidArgument "Invalid or missing signature")
  else throw (.invalidArgument "Invalid or missing signature")

def readWord : Reader PackageError UInt16 := do
  return order.word (← readFromBuffer buffer 2)

/-- The size of a string, the check that names the field, and the string. -/
def readString (field : String) : Reader PackageError (List UInt8) := do
  let size ← readWord order buffer
  if ← Reader.fits buffer size.toNat then readFromBuffer buffer size.toNat
  else throw (.outOfRange ("Buffer too short for " ++ field))

def readCwd : Reader PackageError (Option (List UInt8)) := do
  let cwdPresent ← readFromBuffer buffer 1
  if cwdPresent = [0] then return none
  else return some (← readString order buffer "cwd")

def deserialize : Reader PackageError PackageDescriptor := do
  readSignature buffer
  let rubyVersionMajor ← readWord order buffer
  let rubyVersionMinor ← readWord order buffer
  let rubyVersionPatch ← readWord order buffer
  let tebakoVersionMajor ← readWord order buffer
  let tebakoVersionMinor ← readWord order buffer
  let tebakoVersionPatch ← readWord order buffer
  let mountPoint ← readString order buffer "mount_point"
  let entryPoint ← readString order buffer "entry_point"
  let cwd ← readCwd order buffer
  return ⟨rubyVersionMajor, rubyVersionMinor, rubyVersionPatch, tebakoVersionMajor,
    tebakoVersionMinor, tebakoVersionPatch, mountPoint, entryPoint, cwd⟩

end Deserialization

/-! ## The format -/

/-- Lengths are kept in sixteen bits. -/
def Fits (text : List UInt8) : Prop := text.length < 2 ^ 16

def sized (text : List UInt8) : List UInt8 := order.bytes (UInt16.ofNat text.length) ++ text

/-- `flag` and what follows it stand for the current directory. -/
inductive CwdField : Option (List UInt8) → List UInt8 → Prop where
  | absent : CwdField none [0]
  | present {cwd : List UInt8} {flag : UInt8} (set : flag ≠ 0) (fits : Fits cwd) :
      CwdField (some cwd) (flag :: sized order cwd)

/-- `header` is the header of a package described by `d`. -/
def IsHeader (d : PackageDescriptor) (header : List UInt8) : Prop :=
  Fits d.mountPoint ∧ Fits d.entryPoint ∧ ∃ last, CwdField order d.cwd last ∧
    header = signature ++ (order.bytes d.rubyVersionMajor ++ (order.bytes d.rubyVersionMinor ++
      (order.bytes d.rubyVersionPatch ++ (order.bytes d.tebakoVersionMajor ++
      (order.bytes d.tebakoVersionMinor ++ (order.bytes d.tebakoVersionPatch ++
      (sized order d.mountPoint ++ (sized order d.entryPoint ++ last))))))))

/-! ## What the reading functions compute -/

def signatureParser : Parser PackageError Unit := fun bytes =>
  if signature <+: bytes then .ok ((), bytes.drop signature.length)
  else .error (.invalidArgument "Invalid or missing signature")

def bytesParser (size : Nat) : Parser PackageError (List UInt8) :=
  Parser.take (.outOfRange "Buffer too short for deserialization") size

def wordParser : Parser PackageError UInt16 := do
  return order.word (← bytesParser 2)

def stringParser (field : String) : Parser PackageError (List UInt8) := do
  let size ← wordParser order
  Parser.take (.outOfRange ("Buffer too short for " ++ field)) size.toNat

def cwdParser : Parser PackageError (Option (List UInt8)) := do
  let cwdPresent ← bytesParser 1
  if cwdPresent = [0] then return none
  else return some (← stringParser order "cwd")

def headerParser : Parser PackageError PackageDescriptor := do
  signatureParser
  let rubyVersionMajor ← wordParser order
  let rubyVersionMinor ← wordParser order
  let rubyVersionPatch ← wordParser order
  let tebakoVersionMajor ← wordParser order
  let tebakoVersionMinor ← wordParser order
  let tebakoVersionPatch ← wordParser order
  let mountPoint ← stringParser order "mount_point"
  let entryPoint ← stringParser order "entry_point"
  let cwd ← cwdParser order
  return ⟨rubyVersionMajor, rubyVersionMinor, rubyVersionPatch, tebakoVersionMajor,
    tebakoVersionMinor, tebakoVersionPatch, mountPoint, entryPoint, cwd⟩

section Connection

variable {order} {buffer : Buffer} {cursor : Cursor}

theorem look_advance {size : Nat} (inside : cursor.Inside buffer)
    (fits : cursor.offset + size ≤ buffer.size) :
    (⟨cursor.offset + size, max cursor.touched (cursor.offset + size)⟩ : Cursor).Inside buffer :=
  ⟨fits, max_le inside.touched fits⟩

theorem take_rest {failure : PackageError} {size : Nat} (inside : cursor.Inside buffer) :
    (Parser.take failure size).run (buffer.rest cursor.offset) =
      if cursor.offset + size ≤ buffer.size then
        .ok (buffer.slice cursor.offset size, buffer.rest (cursor.offset + size))
      else .error failure := by
  have bound := inside.offset
  split
  · rename_i fits
    rw [Buffer.rest_split fits]
    exact Parser.take_append Buffer.slice_length
  · rename_i short
    simp only [Parser.take, StateT.run, Buffer.rest_length]
    rw [if_neg (by omega)]

theorem readFromBuffer_consumes (size : Nat) :
    Consumes buffer (readFromBuffer buffer size) (bytesParser size) := by
  intro cursor inside
  rw [bytesParser, take_rest inside]
  by_cases fits : cursor.offset + size ≤ buffer.size
  · simp only [readFromBuffer, Reader.execute_bind, Reader.execute_fits, fits, decide_true,
      ↓reduceIte, Reader.execute_look, Reader.execute_advance, Reader.execute_pure]
    exact ⟨rfl, look_advance inside fits, rfl⟩
  · simp only [readFromBuffer, Reader.execute_bind, Reader.execute_fits, fits, decide_false,
      Bool.false_eq_true, ↓reduceIte, Reader.execute_throw]
    exact ⟨rfl, inside.touched⟩

theorem prefix_rest_iff (fits : cursor.offset + signature.length ≤ buffer.size) :
    signature <+: buffer.rest cursor.offset ↔
      buffer.slice cursor.offset signature.length = signature := by
  rw [Buffer.rest_split fits, List.prefix_iff_eq_take,
    List.take_left' (Buffer.slice_length)]
  exact eq_comm

theorem readSignature_consumes : Consumes buffer (readSignature buffer) signatureParser := by
  intro cursor inside
  by_cases fits : cursor.offset + signature.length ≤ buffer.size
  · simp only [readSignature, Reader.execute_bind, Reader.execute_fits, fits, decide_true,
      ↓reduceIte, Reader.execute_look, signatureParser, StateT.run, prefix_rest_iff fits]
    split
    · refine ⟨rfl, look_advance inside fits, ?_⟩
      rw [Buffer.rest_split fits]
      exact (List.drop_left' Buffer.slice_length).symm
    · exact ⟨rfl, max_le inside.touched fits⟩
  · have short : ¬ signature <+: buffer.rest cursor.offset := by
      intro present
      have length := present.length_le
      rw [Buffer.rest_length] at length
      have bound := inside.offset
      omega
    simp only [readSignature, Reader.execute_bind, Reader.execute_fits, fits, decide_false,
      Bool.false_eq_true, ↓reduceIte, signatureParser, StateT.run, short]
    exact ⟨rfl, inside.touched⟩

theorem readWord_consumes : Consumes buffer (readWord order buffer) (wordParser order) :=
  (readFromBuffer_consumes 2).bind fun _ => .pure _

theorem readString_consumes (field : String) :
    Consumes buffer (readString order buffer field) (stringParser order field) := by
  refine readWord_consumes.bind fun size => ?_
  intro cursor inside
  rw [take_rest inside]
  have consumes := readFromBuffer_consumes size.toNat cursor inside
  rw [bytesParser, take_rest inside] at consumes
  by_cases fits : cursor.offset + size.toNat ≤ buffer.size
  · simp only [Reader.execute_bind, Reader.execute_fits, fits, decide_true, ↓reduceIte] at consumes ⊢
    exact consumes
  · simp only [Reader.execute_bind, Reader.execute_fits, fits, decide_false, Bool.false_eq_true,
      ↓reduceIte, Reader.execute_throw]
    exact ⟨rfl, inside.touched⟩

theorem readCwd_consumes : Consumes buffer (readCwd order buffer) (cwdParser order) := by
  refine (readFromBuffer_consumes 1).bind fun cwdPresent => ?_
  by_cases absent : cwdPresent = [0]
  · simp only [absent, ↓reduceIte]
    exact .pure _
  · simp only [absent, ↓reduceIte]
    exact (readString_consumes _).bind fun _ => .pure _

/-- Reading goes through the buffer as the parser goes through its bytes. -/
theorem deserialize_consumes : Consumes buffer (deserialize order buffer) (headerParser order) :=
  readSignature_consumes.bind fun _ => readWord_consumes.bind fun _ =>
  readWord_consumes.bind fun _ => readWord_consumes.bind fun _ =>
  readWord_consumes.bind fun _ => readWord_consumes.bind fun _ =>
  readWord_consumes.bind fun _ => (readString_consumes _).bind fun _ =>
  (readString_consumes _).bind fun _ => readCwd_consumes.bind fun _ => .pure _

end Connection

/-! ## The parser accepts the format -/

section Format

variable {order} {bytes rest suffix text header : List UInt8} {field : String} {value : UInt16}
variable {cwd : Option (List UInt8)} {d : PackageDescriptor}

theorem signatureParser_append : signatureParser.run (signature ++ rest) = .ok ((), rest) := by
  simp [signatureParser, StateT.run]

theorem signatureParser_ok (parsed : signatureParser.run bytes = .ok ((), rest)) :
    bytes = signature ++ rest := by
  simp only [signatureParser, StateT.run] at parsed
  split at parsed
  · rename_i present
    cases parsed
    exact (List.prefix_iff_eq_append.mp present).symm
  · cases parsed

theorem wordParser_append : (wordParser order).run (order.bytes value ++ rest) = .ok (value, rest) := by
  have first : (bytesParser 2).run (order.bytes value ++ rest) = .ok (order.bytes value, rest) :=
    Parser.take_append (ByteOrder.bytes_length value)
  rw [wordParser, Parser.bind_run first, ByteOrder.word_bytes]
  rfl

theorem wordParser_ok (parsed : (wordParser order).run bytes = .ok (value, rest)) :
    bytes = order.bytes value ++ rest := by
  obtain ⟨pair, left, taken, done⟩ := Parser.bind_ok parsed
  obtain ⟨rfl, two⟩ := Parser.take_ok taken
  cases done
  rw [ByteOrder.bytes_word two]

theorem toNat_length (fits : Fits text) : (UInt16.ofNat text.length).toNat = text.length :=
  UInt16.toNat_ofNat_of_lt' fits

theorem stringParser_append (fits : Fits text) :
    (stringParser order field).run (sized order text ++ rest) = .ok (text, rest) := by
  rw [sized, List.append_assoc, stringParser, Parser.bind_run wordParser_append]
  exact Parser.take_append (toNat_length fits).symm

theorem stringParser_ok (parsed : (stringParser order field).run bytes = .ok (text, rest)) :
    Fits text ∧ bytes = sized order text ++ rest := by
  obtain ⟨size, left, first, second⟩ := Parser.bind_ok parsed
  obtain ⟨rfl, exact⟩ := Parser.take_ok second
  have known : UInt16.ofNat text.length = size := by rw [exact, UInt16.ofNat_toNat]
  refine ⟨?_, ?_⟩
  · rw [Fits, exact]
    exact size.toNat_lt
  · rw [wordParser_ok first, sized, known, List.append_assoc]

theorem cwdParser_append {last : List UInt8} (encoded : CwdField order cwd last) :
    (cwdParser order).run (last ++ rest) = .ok (cwd, rest) := by
  cases encoded with
  | absent => rfl
  | @present cwd flag set fits =>
      have first : (bytesParser 1).run (flag :: (sized order cwd ++ rest)) =
          .ok ([flag], sized order cwd ++ rest) := @Parser.take_append _ _ 1 [flag] _ rfl
      have other : ¬ [flag] = [0] := by simpa using set
      rw [List.cons_append, cwdParser, Parser.bind_run first, if_neg other,
        Parser.bind_run (stringParser_append fits)]
      rfl

theorem cwdParser_ok (parsed : (cwdParser order).run bytes = .ok (cwd, rest)) :
    ∃ last, CwdField order cwd last ∧ bytes = last ++ rest := by
  obtain ⟨cwdPresent, left, taken, second⟩ := Parser.bind_ok parsed
  obtain ⟨rfl, one⟩ := Parser.take_ok taken
  split at second
  · rename_i zero
    cases second
    exact ⟨[0], .absent, by rw [zero]⟩
  · rename_i other
    obtain ⟨text, after, third, done⟩ := Parser.bind_ok second
    obtain ⟨fits, rfl⟩ := stringParser_ok third
    cases done
    obtain ⟨flag, rfl⟩ := List.length_eq_one_iff.mp one
    refine ⟨flag :: sized order text, .present (fun zero => other (by rw [zero])) fits, ?_⟩
    simp only [List.cons_append, List.nil_append]

theorem headerParser_append (encoded : IsHeader order d header) :
    (headerParser order).run (header ++ suffix) = .ok (d, suffix) := by
  obtain ⟨mountPoint, entryPoint, last, cwd, rfl⟩ := encoded
  simp only [List.append_assoc]
  rw [headerParser, Parser.bind_run signatureParser_append, Parser.bind_run wordParser_append,
    Parser.bind_run wordParser_append, Parser.bind_run wordParser_append,
    Parser.bind_run wordParser_append, Parser.bind_run wordParser_append,
    Parser.bind_run wordParser_append, Parser.bind_run (stringParser_append mountPoint),
    Parser.bind_run (stringParser_append entryPoint), Parser.bind_run (cwdParser_append cwd)]
  rfl

theorem headerParser_ok (parsed : (headerParser order).run bytes = .ok (d, suffix)) :
    ∃ header, IsHeader order d header ∧ bytes = header ++ suffix := by
  obtain ⟨_, _, signed, parsed⟩ := Parser.bind_ok parsed
  obtain ⟨_, _, rubyMajor, parsed⟩ := Parser.bind_ok parsed
  obtain ⟨_, _, rubyMinor, parsed⟩ := Parser.bind_ok parsed
  obtain ⟨_, _, rubyPatch, parsed⟩ := Parser.bind_ok parsed
  obtain ⟨_, _, tebakoMajor, parsed⟩ := Parser.bind_ok parsed
  obtain ⟨_, _, tebakoMinor, parsed⟩ := Parser.bind_ok parsed
  obtain ⟨_, _, tebakoPatch, parsed⟩ := Parser.bind_ok parsed
  obtain ⟨_, _, mountPoint, parsed⟩ := Parser.bind_ok parsed
  obtain ⟨_, _, entryPoint, parsed⟩ := Parser.bind_ok parsed
  obtain ⟨_, _, cwd, done⟩ := Parser.bind_ok parsed
  cases done
  obtain ⟨mountFits, rfl⟩ := stringParser_ok mountPoint
  obtain ⟨entryFits, rfl⟩ := stringParser_ok entryPoint
  obtain ⟨last, encoded, rfl⟩ := cwdParser_ok cwd
  refine ⟨_, ⟨mountFits, entryFits, last, encoded, rfl⟩, ?_⟩
  rw [signatureParser_ok signed, wordParser_ok rubyMajor, wordParser_ok rubyMinor,
    wordParser_ok rubyPatch, wordParser_ok tebakoMajor, wordParser_ok tebakoMinor,
    wordParser_ok tebakoPatch]
  simp only [List.append_assoc]

theorem outOfRange_of_string : Parser.FailsOnly PackageError.IsOutOfRange (stringParser order field) :=
  (((Parser.FailsOnly.take ⟨_, rfl⟩).bind fun _ => .pure _).bind fun _ => .take ⟨_, rfl⟩)

theorem outOfRange_of_cwd : Parser.FailsOnly PackageError.IsOutOfRange (cwdParser order) := by
  refine (Parser.FailsOnly.take ⟨_, rfl⟩).bind fun cwdPresent => ?_
  split
  · exact .pure _
  · exact outOfRange_of_string.bind fun _ => .pure _

/-- After the signature nothing but the end of the bytes can be in the way. -/
theorem headerParser_error {failure : PackageError}
    (failed : (headerParser order).run (signature ++ rest) = .error failure) :
    failure.IsOutOfRange := by
  have word : Parser.FailsOnly PackageError.IsOutOfRange (wordParser order) :=
    (Parser.FailsOnly.take ⟨_, rfl⟩).bind fun _ => .pure _
  rw [headerParser, Parser.bind_run signatureParser_append] at failed
  refine (?_ : Parser.FailsOnly PackageError.IsOutOfRange _) _ _ failed
  exact word.bind fun _ => word.bind fun _ => word.bind fun _ => word.bind fun _ =>
    word.bind fun _ => word.bind fun _ => outOfRange_of_string.bind fun _ =>
    outOfRange_of_string.bind fun _ => outOfRange_of_cwd.bind fun _ => .pure _

theorem headerParser_unsigned (unsigned : ¬ signature <+: bytes) :
    (headerParser order).run bytes = .error (.invalidArgument "Invalid or missing signature") := by
  have failed : signatureParser.run bytes =
      .error (.invalidArgument "Invalid or missing signature") := if_neg unsigned
  rw [headerParser, StateT.run_bind, failed]
  rfl

/-- What is a header is not one with something missing at its end. -/
theorem header_complete {other : PackageDescriptor} {missing shorter : List UInt8}
    (encoded : IsHeader order d (shorter ++ suffix ++ missing)) (whole : IsHeader order other shorter) :
    missing = [] := by
  have first := @headerParser_append order [] _ d encoded
  have second := @headerParser_append order (suffix ++ missing) _ other whole
  rw [List.append_nil, List.append_assoc, second] at first
  have none : suffix ++ missing = [] := congrArg (fun answer : Except PackageError
    (PackageDescriptor × List UInt8) => (answer.toOption.map Prod.snd).getD []) first
  exact (List.append_eq_nil_iff.mp none).2

theorem header_of_accepted {buffer : Buffer} (accepted : (deserialize order buffer).result = .ok d) :
    ∃ header suffix, IsHeader order d header ∧ buffer.bytes = header ++ suffix := by
  rw [deserialize_consumes.result_eq] at accepted
  cases parsed : (headerParser order).run buffer.bytes with
  | error failure =>
      rw [parsed] at accepted
      cases accepted
  | ok answer =>
      rw [parsed] at accepted
      cases accepted
      obtain ⟨header, encoded, whole⟩ := headerParser_ok parsed
      exact ⟨header, _, encoded, whole⟩

end Format

/-- The parser accepts the headers, whatever follows them, and takes from them
what they were made of. Other bytes lack the signature or end too early, and
none behind the buffer are looked at. -/
theorem deserialize_accepts_headers (order : ByteOrder) (buffer : Buffer) :
    (∀ d, (deserialize order buffer).result = .ok d ↔
      ∃ header suffix, IsHeader order d header ∧ buffer.bytes = header ++ suffix) ∧
    (¬ signature <+: buffer.bytes →
      ∃ what, (deserialize order buffer).result = .error (.invalidArgument what)) ∧
    (signature <+: buffer.bytes → (∀ d header, IsHeader order d header → ¬ header <+: buffer.bytes) →
      ∃ what, (deserialize order buffer).result = .error (.outOfRange what)) ∧
    (signature <+: buffer.bytes → ∀ d missing, missing ≠ [] →
      IsHeader order d (buffer.bytes ++ missing) →
      ∃ what, (deserialize order buffer).result = .error (.outOfRange what)) ∧
    (deserialize order buffer).reached ≤ buffer.size := by
  have result := (@deserialize_consumes order buffer).result_eq
  have noHeader : signature <+: buffer.bytes →
      (∀ d header, IsHeader order d header → ¬ header <+: buffer.bytes) →
      ∃ what, (deserialize order buffer).result = .error (.outOfRange what) := by
    intro begins never
    obtain ⟨rest, signed⟩ := begins
    rw [result]
    cases parsed : (headerParser order).run buffer.bytes with
    | ok answer =>
        obtain ⟨header, encoded, whole⟩ := headerParser_ok parsed
        exact absurd ⟨_, whole.symm⟩ (never _ header encoded)
    | error failure =>
        rw [← signed] at parsed
        obtain ⟨what, rfl⟩ := headerParser_error parsed
        exact ⟨what, rfl⟩
  refine ⟨?_, ?_, noHeader, ?_, deserialize_consumes.reached_le⟩
  · intro d
    refine ⟨header_of_accepted, fun isHeader => ?_⟩
    obtain ⟨header, suffix, encoded, whole⟩ := isHeader
    rw [result, whole, headerParser_append encoded]
    rfl
  · intro unsigned
    rw [result, headerParser_unsigned unsigned]
    exact ⟨_, rfl⟩
  · intro signed d missing present encoded
    refine noHeader signed fun other shorter whole ⟨suffix, split⟩ => present ?_
    rw [← split] at encoded
    exact header_complete encoded whole

/-! ## Round trip -/

/-- A string as far as its converted size goes. -/
def cut (text : List UInt8) : List UInt8 := text.take (UInt16.ofNat text.length).toNat

theorem cut_length (text : List UInt8) : (cut text).length = text.length % 2 ^ 16 := by
  rw [cut, List.length_take, UInt16.toNat_ofNat']
  exact min_eq_left (Nat.mod_le _ _)

theorem cut_eq_iff {text : List UInt8} : cut text = text ↔ Fits text := by
  constructor
  · intro same
    have length := cut_length text
    rw [same] at length
    rw [Fits, length]
    exact Nat.mod_lt _ (by decide)
  · intro fits
    rw [cut, toNat_length fits, List.take_length]

theorem appendString_eq (text : List UInt8) :
    appendString order text = sized order (cut text) ∧ Fits (cut text) := by
  refine ⟨?_, ?_⟩
  · have known : UInt16.ofNat (cut text).length = UInt16.ofNat text.length := by
      apply UInt16.toNat.inj
      rw [UInt16.toNat_ofNat', UInt16.toNat_ofNat', cut_length, Nat.mod_mod]
    rw [sized, known]
    rfl
  · rw [Fits, cut_length]
    exact Nat.mod_lt _ (by decide)

/-- What is left of a descriptor when the sizes of its strings are converted. -/
def shortened (d : PackageDescriptor) : PackageDescriptor :=
  { d with mountPoint := cut d.mountPoint, entryPoint := cut d.entryPoint, cwd := d.cwd.map cut }

theorem serialize_isHeader (d : PackageDescriptor) : IsHeader order d.shortened (d.serialize order) := by
  obtain ⟨mountPoint, mountFits⟩ := appendString_eq order d.mountPoint
  obtain ⟨entryPoint, entryFits⟩ := appendString_eq order d.entryPoint
  refine ⟨mountFits, entryFits, ?_⟩
  cases cwd : d.cwd with
  | none =>
      refine ⟨[0], by simpa [shortened, cwd] using CwdField.absent, ?_⟩
      simp only [serialize, cwd, mountPoint, entryPoint, List.append_assoc, shortened]
  | some text =>
      obtain ⟨last, lastFits⟩ := appendString_eq order text
      refine ⟨1 :: sized order (cut text), ?_, ?_⟩
      · simpa [shortened, cwd] using CwdField.present (by decide) lastFits
      · simp only [serialize, cwd, mountPoint, entryPoint, last, List.append_assoc, shortened]

theorem deserialize_serialize (d : PackageDescriptor) (image : List UInt8) :
    (deserialize order (.ofList (d.serialize order ++ image))).result = .ok d.shortened := by
  rw [deserialize_consumes.result_eq, Buffer.ofList_bytes,
    headerParser_append (serialize_isHeader order d)]
  rfl

theorem shortened_eq_iff {d : PackageDescriptor} :
    d.shortened = d ↔
      Fits d.mountPoint ∧ Fits d.entryPoint ∧ ∀ cwd, d.cwd = some cwd → Fits cwd := by
  rw [← cut_eq_iff, ← cut_eq_iff]
  obtain ⟨_, _, _, _, _, _, mountPoint, entryPoint, cwd⟩ := d
  simp only [shortened, PackageDescriptor.mk.injEq, true_and]
  refine and_congr_right fun _ => and_congr_right fun _ => ?_
  cases cwd with
  | none => simp
  | some text => simp [cut_eq_iff]

/-- A descriptor comes back as it was exactly when its strings have lengths that
sixteen bits can hold. -/
theorem deserialize_serialize_iff (order : ByteOrder) (d : PackageDescriptor) :
    (∀ image, (deserialize order (.ofList (d.serialize order ++ image))).result = .ok d) ↔
      Fits d.mountPoint ∧ Fits d.entryPoint ∧ ∀ cwd, d.cwd = some cwd → Fits cwd := by
  simp only [deserialize_serialize, forall_const, Except.ok.injEq, shortened_eq_iff]

/-- A mount point of 65536 characters is written with the size 0. -/
theorem long_mountPoint_lost : ¬ ∀ (order : ByteOrder) (d : PackageDescriptor) (image : List UInt8),
    (deserialize order (.ofList (d.serialize order ++ image))).result = .ok d := by
  intro always
  have length : (List.replicate 65536 (47 : UInt8)).length = 65536 := List.length_replicate
  have back := always .little ⟨3, 3, 3, 0, 8, 0, List.replicate 65536 47, [47], none⟩ []
  generalize List.replicate 65536 (47 : UInt8) = mountPoint at length back
  rw [deserialize_serialize] at back
  have fits := (shortened_eq_iff.mp (Except.ok.inj back)).1
  rw [Fits, length] at fits
  exact absurd fits (by decide)

end PackageDescriptor

end Tebako
