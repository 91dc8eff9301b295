import Mathlib.Algebra.Ring.Int.Defs
import Mathlib.Data.List.TakeWhile
import Mathlib.Data.UInt
import Tebako.Data.LexicalPath

namespace Tebako

open Data.LexicalPath

/-! Strings, error numbers and the mount point, as on Linux. -/

/-- A `std::string`. It may hold any character, a NUL among them. -/
abbrev Str := List Char

/-- What a `const char*` denotes: the characters before the terminating NUL. -/
structure CString where
  chars : Str
  noNul : Char.ofNat 0 ∉ chars
deriving DecidableEq

theorem CString.ext {left right : CString} (same : left.chars = right.chars) : left = right := by
  cases left
  cases right
  cases same
  rfl

/-- `c_str()` as seen by a function that stops at the first NUL. -/
def cStr (text : Str) : CString where
  chars := text.takeWhile (· ≠ Char.ofNat 0)
  noNul member := by simpa using List.mem_takeWhile_imp member

@[simp] theorem cStr_chars (path : CString) : cStr path.chars = path := by
  apply CString.ext
  refine List.takeWhile_eq_self_iff.mpr fun char member => ?_
  have other : char ≠ Char.ofNat 0 := fun same => path.noNul (same ▸ member)
  simpa using other

theorem cStr_chars_of_noNul {text : Str} (noNul : Char.ofNat 0 ∉ text) :
    (cStr text).chars = text :=
  congrArg CString.chars (cStr_chars ⟨text, noNul⟩)

inductive Errno where
  | ENOENT | EIO | EBADF | ENOMEM | EACCES | EFAULT | ENOTDIR | EINVAL | EMFILE | ERANGE
  | EROFS | ELOOP | EOVERFLOW | ENOTSUP
  | other (code : Int)
deriving Repr, DecidableEq

/-- `PATH_MAX` -/
def tebakoPathLength : Nat := 4096

def tebakoMountPointName : Str :=
  ['_', '_', 't', 'e', 'b', 'a', 'k', 'o', '_', 'm', 'e', 'm', 'f', 's', '_', '_']

def tebakoMountPoint : Str := '/' :: tebakoMountPointName

def tebakoMountPointLength : Nat := 17

theorem tebakoMountPoint_length : tebakoMountPoint.length = tebakoMountPointLength := by decide

/-- Copies into a `tebako_path_t`: what does not fit is cut off. -/
def tebakoPathAssign (text : Str) : CString where
  chars := (cStr text).chars.take tebakoPathLength
  noNul member := (cStr text).noNul (List.mem_of_mem_take member)

/-- `strncmp` against the mount point: a test of the first characters only. -/
def isTebakoPath (path : CString) : Bool := tebakoMountPoint.isPrefixOf path.chars

theorem isTebakoPath_iff {path : CString} :
    isTebakoPath path = true ↔ ∃ rest, path.chars = tebakoMountPoint ++ rest := by
  rw [isTebakoPath, List.isPrefixOf_iff_prefix]
  exact exists_congr fun _ => eq_comm

theorem tebakoPathAssign_chars_of_fits {text : Str} (noNul : Char.ofNat 0 ∉ text)
    (fits : text.length ≤ tebakoPathLength) : (tebakoPathAssign text).chars = text := by
  have whole := cStr_chars_of_noNul noNul
  simp only [tebakoPathAssign, whole, List.take_of_length_le fits]

end Tebako
