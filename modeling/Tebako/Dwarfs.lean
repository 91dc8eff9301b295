import Mathlib.Data.Rat.Defs
import Tebako.Common

namespace Tebako

/-! The dwarfs library as the memfs uses it.

Images are read through a handful of calls; an image is modelled by what these
calls answer. Inode numbers here are those of the image itself, starting at 0
for its root directory: the offset that a mounted image adds to them is applied
by the memfs. -/

structure InodeView where
  inodeNum : UInt32
deriving Repr, DecidableEq

/-- The part of `struct stat` that the library reads. -/
structure FileStat where
  ino : UInt64
  mode : UInt32
  size : Nat
deriving Repr, DecidableEq

def fileTypeMask : UInt32 := 0o170000

def FileStat.isLnk (st : FileStat) : Bool := st.mode &&& fileTypeMask == 0o120000

def FileStat.isDir (st : FileStat) : Bool := st.mode &&& fileTypeMask == 0o040000

theorem isLnk_of_isDir {st : FileStat} (dir : st.isDir = true) : st.isLnk = false := by
  have mode : st.mode &&& fileTypeMask = 0o040000 := by simpa [FileStat.isDir] using dir
  simp [FileStat.isLnk, mode]

structure InodeAttr where
  mode : UInt32
  size : Nat
deriving Repr, DecidableEq

structure DirView where
  inode : UInt32
deriving Repr, DecidableEq

/-- A loaded `dwarfs::filesystem_v2`. An error is an error number, returned or
thrown: the callers treat both alike. -/
structure Dwarfs where
  find : UInt32 → Option InodeView
  findChild : UInt32 → CString → Option InodeView
  getattr : InodeView → Except Errno InodeAttr
  readlink : InodeView → Except Errno CString
  opendir : InodeView → Option DirView
  dirsize : DirView → Nat
  readdir : DirView → Nat → Option (InodeView × Str)
  read : UInt32 → Nat → Nat → Except Errno (List UInt8)

/-- A file system that has not been loaded: it knows no inode. -/
def Dwarfs.unloaded : Dwarfs where
  find _ := none
  findChild _ _ := none
  getattr _ := .error .ENOENT
  readlink _ := .error .ENOENT
  opendir _ := none
  dirsize _ := 0
  readdir _ _ := none
  read _ _ _ := .error .ENOENT

inductive MlockMode where
  | none | try | must
deriving Repr, DecidableEq

inductive LogLevel where
  | error | warn | info | debug | trace
deriving Repr, DecidableEq

structure FilesystemOptions where
  lockMode : MlockMode
  maxBytes : Nat
  numWorkers : Nat
  decompressRatio : ℚ
  mmRelease : Bool
  initWorkers : Bool
  enableNlink : Bool
  readonly : Bool
  imageOffset : Int
deriving Repr, DecidableEq

def imageOffsetAuto : Int := -1

end Tebako
