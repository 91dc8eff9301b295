import Mathlib.Data.List.Basic

namespace Tebako.Data.Block

/-! Blocks of memory that are filled from their beginning, piece by piece. A cell
that nothing has been written to yet is `none`. -/

variable {α : Type u}

def fresh (size : Nat) : List (Option α) := List.replicate size none

/-- Writes within the block; there is no result where it would go past the end. -/
def write (block : List (Option α)) (offset : Nat) (values : List α) : Option (List (Option α)) :=
  if offset + values.length ≤ block.length then
    some (block.take offset ++ values.map some ++ block.drop (offset + values.length))
  else none

/-- The cells up to a terminator, all of them written to. -/
def readTo [DecidableEq α] (terminator : α) : List (Option α) → Option (List α)
  | [] => none
  | none :: _ => none
  | some value :: rest =>
      if value = terminator then some [] else (readTo terminator rest).map (value :: ·)

/-- Where each of several pieces starts when they follow each other from `offset` on. -/
def starts : Nat → List (List α) → List Nat
  | _, [] => []
  | offset, piece :: rest => offset :: starts (offset + piece.length) rest

/-- A block of which the beginning has been written. -/
def filled (written : List α) (room : Nat) : List (Option α) := written.map some ++ fresh room

variable {written values text : List α} {room offset index : Nat} {pieces : List (List α)}

@[simp] theorem fresh_length : (fresh room : List (Option α)).length = room := List.length_replicate

@[simp] theorem filled_length : (filled written room).length = written.length + room := by
  rw [filled, List.length_append, List.length_map, fresh_length]

theorem filled_zero : filled written 0 = written.map some := List.append_nil _

/-- Writing goes on where it ended. -/
theorem write_filled (fits : values.length ≤ room) :
    write (filled written room) written.length values =
      some (filled (written ++ values) (room - values.length)) := by
  have before : (filled written room).take written.length = written.map some := by
    rw [filled, List.take_left' (List.length_map _)]
  have after : (filled written room).drop (written.length + values.length) =
      fresh (room - values.length) := by
    rw [filled, ← List.drop_drop, List.drop_left' (List.length_map _), fresh, List.drop_replicate,
      fresh]
  rw [write, if_pos (by rw [filled_length]; omega), before, after, filled, List.map_append]

theorem readTo_terminated [DecidableEq α] {terminator : α} (absent : terminator ∉ text)
    (rest : List (Option α)) :
    readTo terminator (text.map some ++ some terminator :: rest) = some text := by
  induction text with
  | nil => simp [readTo]
  | cons value text ih =>
      obtain ⟨other, later⟩ := not_or.mp (fun member => absent (List.mem_cons.mpr member))
      simp [readTo, Ne.symm other, ih later]

/-- A piece is found where it starts. -/
theorem drop_starts {piece : List α} (found : pieces[index]? = some piece) :
    ∃ offset rest, (starts written.length pieces)[index]? = some offset ∧
      (written ++ pieces.flatten).drop offset = piece ++ rest := by
  induction pieces generalizing written index with
  | nil => cases found
  | cons first pieces ih =>
      cases index with
      | zero =>
          cases found
          exact ⟨written.length, pieces.flatten, rfl, List.drop_left⟩
      | succ index =>
          obtain ⟨offset, rest, start, same⟩ := @ih (written ++ first) index found
          rw [List.length_append] at start
          rw [List.append_assoc] at same
          exact ⟨offset, rest, start, same⟩

end Tebako.Data.Block
