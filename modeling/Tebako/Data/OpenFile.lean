import Mathlib.Algebra.GroupWithZero.Nat
import Mathlib.Data.List.Basic
import Tebako.Data.Machine

namespace Tebako.Data

/-! A file opened for reading, as a program sees it: its bytes, and the position
that reading goes on from. -/

/-- `content` is an error where there are no bytes to read, as in a directory.
`size` is what the position is counted back from at the end of the file. -/
structure OpenFile (β : Type u) (α : Type v) (ε : Type w) where
  info : β
  content : Except ε (List α)
  size : Nat
  pos : Nat

namespace OpenFile

variable {β : Type u} {α : Type v} {ε : Type w}

inductive Whence where
  | set | cur | last
deriving DecidableEq

inductive Op (β : Type u) (α : Type v) (ε : Type w) where
  | open (info : β) (content : Except ε (List α)) (size : Nat)
  | read (count : Nat)
  | readAt (start count : Nat)
  | readInto (counts : List Nat)
  | seek (offset : Int) (whence : Option Whence)
  | lock
  | info
  | close

inductive Answer (β : Type u) (α : Type v) (ε : Type w) where
  | done
  | bytes (got : List α)
  | failed (error : ε)
  | moved (pos : Nat)
  | negative
  | tooLarge
  | info (info : β)
  | notOpen

def slice (content : List α) (start count : Nat) : List α := (content.drop start).take count

def readOn (file : OpenFile β α ε) (count : Nat) : Answer β α ε × OpenFile β α ε :=
  match file.content with
  | .error error => (.failed error, file)
  | .ok content =>
      (.bytes (slice content file.pos count),
        { file with pos := file.pos + (slice content file.pos count).length })

def readAt (file : OpenFile β α ε) (start count : Nat) : Answer β α ε :=
  match file.content with
  | .error error => .failed error
  | .ok content => .bytes (slice content start count)

def target (file : OpenFile β α ε) (offset : Int) : Whence → Int
  | .set => offset
  | .cur => file.pos + offset
  | .last => file.size + offset

/-- Positions are counted up to `limit`. -/
def seek (limit : Nat) (file : OpenFile β α ε) (offset : Int) : Option Whence → Answer β α ε × OpenFile β α ε
  | none => (.negative, file)
  | some whence =>
      if file.target offset whence < 0 then (.negative, file)
      else if limit < file.target offset whence then (.tooLarge, file)
      else (.moved (file.target offset whence).toNat, { file with pos := (file.target offset whence).toNat })

/-- Several buffers are filled as one buffer for all of them would be. -/
def step (limit : Nat) : Machine (Option (OpenFile β α ε)) (Op β α ε) (Answer β α ε)
  | .open info content size, _ => (.done, some ⟨info, content, size, 0⟩)
  | _, none => (.notOpen, none)
  | .read count, some file => ((file.readOn count).1, some (file.readOn count).2)
  | .readAt start count, some file => (file.readAt start count, some file)
  | .readInto counts, some file => ((file.readOn counts.sum).1, some (file.readOn counts.sum).2)
  | .seek offset whence, some file => ((file.seek limit offset whence).1, some (file.seek limit offset whence).2)
  | .lock, some file => (.done, some file)
  | .info, some file => (.info file.info, some file)
  | .close, some _ => (.done, none)

variable {content : List α} {start count limit : Nat}

theorem length_slice : (slice content start count).length = min count (content.length - start) := by
  rw [slice, List.length_take, List.length_drop]

end OpenFile

end Tebako.Data
