import Mathlib.Data.List.Basic

namespace Tebako.Data

/-! Reading a buffer of bytes from front to back.

A reader works on memory of which only the first `size` bytes are the buffer,
and keeps track of how far it has read. What it computes is described by a
parser, a function on the bytes that are left; `Consumes` is the connection. -/

structure Buffer where
  byte : Nat → UInt8
  size : Nat

namespace Buffer

def slice (buffer : Buffer) (offset count : Nat) : List UInt8 :=
  (List.range' offset count).map buffer.byte

def rest (buffer : Buffer) (offset : Nat) : List UInt8 :=
  buffer.slice offset (buffer.size - offset)

def bytes (buffer : Buffer) : List UInt8 := buffer.slice 0 buffer.size

def ofList (bytes : List UInt8) : Buffer where
  byte index := bytes.getD index 0
  size := bytes.length

variable {buffer : Buffer} {offset count more : Nat}

@[simp] theorem slice_length : (buffer.slice offset count).length = count := by
  simp [slice]

theorem rest_length : (buffer.rest offset).length = buffer.size - offset := slice_length

theorem slice_append :
    buffer.slice offset count ++ buffer.slice (offset + count) more =
      buffer.slice offset (count + more) := by
  rw [slice, slice, slice, ← List.map_append, List.range'_append_1]

theorem rest_split (fits : offset + count ≤ buffer.size) :
    buffer.rest offset = buffer.slice offset count ++ buffer.rest (offset + count) := by
  have room : buffer.size - offset = count + (buffer.size - (offset + count)) := by omega
  rw [rest, rest, slice_append, ← room]

@[simp] theorem ofList_bytes (bytes : List UInt8) : (ofList bytes).bytes = bytes := by
  apply List.ext_getElem
  · exact slice_length
  · intro index left right
    simp [Buffer.bytes, slice, ofList, List.getElem?_eq_getElem right]

end Buffer

/-- `touched` is the end of the last byte that has been looked at. -/
structure Cursor where
  offset : Nat
  touched : Nat

abbrev Reader (ε : Type) := ExceptT ε (StateM Cursor)

/-- A function on what is left of the bytes. -/
abbrev Parser (ε : Type) := StateT (List UInt8) (Except ε)

variable {ε α β : Type}

namespace Reader

def fits (buffer : Buffer) (count : Nat) : Reader ε Bool := do
  return decide ((← get).offset + count ≤ buffer.size)

/-- Looks at the next bytes of the memory, whether they are in the buffer or not. -/
def look (buffer : Buffer) (count : Nat) : Reader ε (List UInt8) := do
  let cursor ← get
  set { cursor with touched := max cursor.touched (cursor.offset + count) }
  return buffer.slice cursor.offset count

def advance (count : Nat) : Reader ε Unit :=
  modify fun cursor => { cursor with offset := cursor.offset + count }

def execute (reader : Reader ε α) (cursor : Cursor) : Except ε α × Cursor :=
  reader.run cursor

/-- The result of reading from the beginning. -/
def result (reader : Reader ε α) : Except ε α := (reader.execute ⟨0, 0⟩).1

/-- How much of the memory has been looked at when reading is over. -/
def reached (reader : Reader ε α) : Nat := (reader.execute ⟨0, 0⟩).2.touched

variable {buffer : Buffer} {count : Nat} {cursor : Cursor}

@[simp] theorem execute_bind (reader : Reader ε α) (continuation : α → Reader ε β) :
    (reader >>= continuation).execute cursor =
      match reader.execute cursor with
      | (.ok value, after) => (continuation value).execute after
      | (.error failure, after) => (.error failure, after) := by
  simp only [execute, ExceptT.run, bind, ExceptT.bind, StateT.bind, ExceptT.mk, ExceptT.bindCont]
  cases reader cursor with
  | mk outcome after => cases outcome <;> rfl

@[simp] theorem execute_pure (value : α) :
    (pure value : Reader ε α).execute cursor = (.ok value, cursor) := rfl

@[simp] theorem execute_throw (failure : ε) :
    (throw failure : Reader ε α).execute cursor = (.error failure, cursor) := rfl

@[simp] theorem execute_fits : (fits buffer count : Reader ε Bool).execute cursor =
    (.ok (decide (cursor.offset + count ≤ buffer.size)), cursor) := rfl

@[simp] theorem execute_look : (look buffer count : Reader ε (List UInt8)).execute cursor =
    (.ok (buffer.slice cursor.offset count),
      { cursor with touched := max cursor.touched (cursor.offset + count) }) := rfl

@[simp] theorem execute_advance : (advance count : Reader ε Unit).execute cursor =
    (.ok (), { cursor with offset := cursor.offset + count }) := rfl

end Reader

/-- The cursor and everything looked at so far are inside the buffer. -/
structure Cursor.Inside (buffer : Buffer) (cursor : Cursor) : Prop where
  offset : cursor.offset ≤ buffer.size
  touched : cursor.touched ≤ buffer.size

/-- What a reader comes to, as a parser predicts it. -/
def Agrees (buffer : Buffer) : Except ε α × Cursor → Except ε (α × List UInt8) → Prop
  | (outcome, after), .ok (value, left) =>
      outcome = .ok value ∧ after.Inside buffer ∧ buffer.rest after.offset = left
  | (outcome, after), .error failure =>
      outcome = .error failure ∧ after.touched ≤ buffer.size

def Consumes (buffer : Buffer) (reader : Reader ε α) (parser : Parser ε α) : Prop :=
  ∀ cursor : Cursor, cursor.Inside buffer →
    Agrees buffer (reader.execute cursor) (parser.run (buffer.rest cursor.offset))

namespace Consumes

variable {buffer : Buffer} {reader : Reader ε α} {parser : Parser ε α}

theorem pure (value : α) : Consumes buffer (Pure.pure value : Reader ε α) (Pure.pure value) :=
  fun _ inside => ⟨rfl, inside, rfl⟩

theorem throw (failure : ε) :
    Consumes buffer (MonadExcept.throw failure : Reader ε α) (fun _ => .error failure) :=
  fun _ inside => ⟨rfl, inside.touched⟩

theorem bind {continuation : α → Reader ε β} {next : α → Parser ε β}
    (first : Consumes buffer reader parser)
    (second : ∀ value, Consumes buffer (continuation value) (next value)) :
    Consumes buffer (reader >>= continuation) (parser >>= next) := by
  intro cursor inside
  have agrees := first cursor inside
  rw [Reader.execute_bind, StateT.run_bind]
  cases outcome : reader.execute cursor with
  | mk result after =>
      rw [outcome] at agrees
      cases parsed : parser.run (buffer.rest cursor.offset) with
      | error failure =>
          rw [parsed] at agrees
          obtain ⟨rfl, touched⟩ := agrees
          exact ⟨rfl, touched⟩
      | ok answer =>
          obtain ⟨value, left⟩ := answer
          rw [parsed] at agrees
          obtain ⟨rfl, insideAfter, rfl⟩ := agrees
          exact second value after insideAfter

theorem result_eq (consumes : Consumes buffer reader parser) :
    reader.result = (parser.run buffer.bytes).map Prod.fst := by
  have agrees := consumes ⟨0, 0⟩ ⟨Nat.zero_le _, Nat.zero_le _⟩
  simp only [Reader.result]
  change Agrees buffer _ (parser.run buffer.bytes) at agrees
  cases parsed : parser.run buffer.bytes with
  | error failure =>
      rw [parsed] at agrees
      exact agrees.1
  | ok answer =>
      rw [parsed] at agrees
      exact agrees.1

theorem reached_le (consumes : Consumes buffer reader parser) : reader.reached ≤ buffer.size := by
  have agrees := consumes ⟨0, 0⟩ ⟨Nat.zero_le _, Nat.zero_le _⟩
  simp only [Reader.reached]
  cases parsed : parser.run (buffer.rest 0) with
  | error failure =>
      rw [parsed] at agrees
      exact agrees.2
  | ok answer =>
      rw [parsed] at agrees
      exact agrees.2.1.touched

end Consumes

namespace Parser

def take (failure : ε) (count : Nat) : Parser ε (List UInt8) := fun bytes =>
  if count ≤ bytes.length then .ok (bytes.take count, bytes.drop count) else .error failure

variable {failure : ε} {count : Nat} {bytes piece left : List UInt8}

theorem take_append (exact : piece.length = count) :
    (take failure count).run (piece ++ left) = .ok (piece, left) := by
  subst exact
  have enough : piece.length ≤ (piece ++ left).length := by simp
  simp [take, StateT.run]

theorem take_ok (taken : (take failure count).run bytes = .ok (piece, left)) :
    bytes = piece ++ left ∧ piece.length = count := by
  simp only [take, StateT.run] at taken
  split at taken
  · cases taken
    exact ⟨(List.take_append_drop count bytes).symm, by simp; omega⟩
  · cases taken

theorem bind_ok {parser : Parser ε α} {next : α → Parser ε β} {answer : β × List UInt8}
    (parsed : (parser >>= next).run bytes = .ok answer) :
    ∃ value rest, parser.run bytes = .ok (value, rest) ∧ (next value).run rest = .ok answer := by
  rw [StateT.run_bind] at parsed
  cases first : parser.run bytes with
  | error failure =>
      rw [first] at parsed
      cases parsed
  | ok middle =>
      rw [first] at parsed
      exact ⟨middle.1, middle.2, rfl, parsed⟩

theorem bind_run {parser : Parser ε α} {next : α → Parser ε β} {value : α}
    (first : parser.run bytes = .ok (value, left)) :
    (parser >>= next).run bytes = (next value).run left := by
  rw [StateT.run_bind, first]
  rfl

/-- Every failure of the parser is of this kind. -/
def FailsOnly (kind : ε → Prop) (parser : Parser ε α) : Prop :=
  ∀ bytes failure, parser.run bytes = .error failure → kind failure

theorem FailsOnly.pure {kind : ε → Prop} (value : α) : FailsOnly kind (Pure.pure value) := by
  intro bytes failure failed
  cases failed

theorem FailsOnly.take {kind : ε → Prop} (known : kind failure) :
    FailsOnly kind (take failure count) := by
  intro bytes other failed
  simp only [Parser.take, StateT.run] at failed
  split at failed
  · cases failed
  · cases failed
    exact known

theorem FailsOnly.bind {kind : ε → Prop} {parser : Parser ε α} {next : α → Parser ε β}
    (first : FailsOnly kind parser) (second : ∀ value, FailsOnly kind (next value)) :
    FailsOnly kind (parser >>= next) := by
  intro bytes failure failed
  rw [StateT.run_bind] at failed
  cases parsed : parser.run bytes with
  | error other =>
      rw [parsed] at failed
      cases failed
      exact first bytes _ parsed
  | ok answer =>
      rw [parsed] at failed
      exact second _ _ _ failed

end Parser

end Tebako.Data
