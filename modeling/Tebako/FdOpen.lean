import Tebako.FdTable
import Tebako.LinkTarget

namespace Tebako

open Data Data.Loop Data.OrderedMap

/-! Opening files of a memfs, and the attributes that their descriptors hold. -/

def oWronly : UInt32 := 0o1

def oRdwr : UInt32 := 0o2

def oCreat : UInt32 := 0o100

def oTrunc : UInt32 := 0o1000

def oDirectory : UInt32 := 0o200000

def oNofollow : UInt32 := 0o400000

/-- Any of these asks for a file that can be changed. -/
def oWrite : UInt32 := oRdwr ||| oWronly ||| oTrunc ||| oCreat

/-- `exhausted`: `::dup(0)` has failed. `EMFILE` is set, but then `~tebako_fd`
closes its handle, in which there is no value, and may leave another error. -/
inductive OpenAnswer where
  | opened (vfd : Int)
  | linkOutside (lnk : CString)
  | failed (errno : Errno)
  | exhausted
  | invalidFd
deriving DecidableEq

/-- What `open` and `openat` do with the result of the lookup. `dup` is what
`::dup(0)` returns. -/
def FdTable.openFound (found : Except Errno Lookup) (flags : UInt32) (dup : Int) (table : FdTable) :
    OpenAnswer × FdTable :=
  match found with
  | .ok (.inode st) =>
      if flags &&& oWrite ≠ 0 then (.failed .EROFS, table)
      else if st.isDir = false ∧ flags &&& oDirectory ≠ 0 then (.failed .ENOTDIR, table)
      else if st.isLnk = true ∧ flags &&& oNofollow ≠ 0 then (.failed .ELOOP, table)
      else if dup = dwarfsIoError then (.exhausted, table)
      else (.opened dup, Std.ExtTreeMap.insert table dup ⟨st, 0, 0, dup⟩)
  | .ok (.linkOutside lnk _) => (.linkOutside lnk, table)
  | _ => (.failed (if flags &&& oWrite ≠ 0 then .EROFS else .ENOENT), table)

/-- The flags do not keep what is found from being opened. -/
def Accepts (found : Except Errno Lookup) (flags : UInt32) : Prop :=
  ∃ st, found = .ok (.inode st) ∧ flags &&& oWrite = 0 ∧
    (st.isDir = true ∨ flags &&& oDirectory = 0) ∧ (st.isLnk = false ∨ flags &&& oNofollow = 0)

def FdTable.open (w : World) (fuel : Nat) (path : CString) (flags : UInt32) (dup : Int)
    (table : FdTable) : Option (OpenAnswer × FdTable) :=
  (dwarfsStat w fuel path (flags &&& oNofollow = 0)).map fun found =>
    table.openFound found flags dup

def FdTable.openat (w : World) (fuel : Nat) (vfd : Int) (path : CString) (flags : UInt32) (dup : Int)
    (table : FdTable) : Option (OpenAnswer × FdTable) :=
  match table.fstat vfd with
  | none => some (.invalidFd, table)
  | some stfd =>
      if stfd.isDir = false then some (.failed .ENOTDIR, table)
      else
        let inode := stfd.ino.toUInt32
        match inodeMemfsCall w.memfsTable (fun memfs inode => memfs.inodeAccess inode xOk) inode with
        | .error _ => some (.failed .EACCES, table)
        | .ok () =>
            (dwarfsInodeRelativeStat w fuel inode path (flags &&& oNofollow = 0)).map fun found =>
              table.openFound found flags dup

/-- The calls that change the table. The state of the library and of the host
at the time of an opening is arbitrary. -/
inductive FdOp where
  | openFile (w : World) (fuel : Nat) (path : CString) (flags : UInt32) (dup : Int)
  | openAt (w : World) (fuel : Nat) (vfd : Int) (path : CString) (flags : UInt32) (dup : Int)
  | close (vfd : Int)
  | closeAll
  /-- All that `read`, `readv`, `lseek` and `flock` change. -/
  | update (vfd : Int) (pos : Nat) (lock : Int)

/-- An opening that does not come to its end leaves the table alone. -/
def fdStep : Machine FdTable FdOp (Option OpenAnswer)
  | .openFile w fuel path flags dup, table =>
      match table.open w fuel path flags dup with
      | none => (none, table)
      | some (answer, table) => (some answer, table)
  | .openAt w fuel vfd path flags dup, table =>
      match table.openat w fuel vfd path flags dup with
      | none => (none, table)
      | some (answer, table) => (some answer, table)
  | .close vfd, table => (none, (table.close vfd).2)
  | .closeAll, table => (none, table.closeAll)
  | .update vfd pos lock, table =>
      (none, table.modify vfd fun fd => { fd with pos := pos, lock := lock })

/-- Links met on the way are followed to their end in the memfs or leave it at
once, and the images are among those given. -/
def OpensSoundly (images : Memfs → Prop) (w : World) (flags : UInt32) (request : Request) : Prop :=
  (∀ (index : UInt32) memfs, w.memfsTable[index]? = some memfs → images memfs) ∧
    (flags &&& oNofollow = 0 → ∀ resolved, Resolves w request resolved →
      LeavesDirectly resolved ∧ ∀ lnk, resolved.1 ≠ .lost lnk)

def FdOp.Permitted (images : Memfs → Prop) (table : FdTable) : FdOp → Prop
  | .openFile w _ path flags _ => OpensSoundly images w flags (.stat path)
  | .openAt w _ vfd path flags _ =>
      ∀ stfd, table.fstat vfd = some stfd →
        OpensSoundly images w flags (.relativeStat stfd.ino.toUInt32 path)
  | .close _ => True
  | .closeAll => True
  | .update _ _ _ => True

variable {images : Memfs → Prop} {w : World} {request : Request} {flags : UInt32}
variable {table after : FdTable} {st : FileStat} {found : Except Errno Lookup} {fuel : Nat}

theorem accepts_inode : Accepts (.ok (.inode st)) flags ↔ flags &&& oWrite = 0 ∧
    ¬ (st.isDir = false ∧ flags &&& oDirectory ≠ 0) ∧ ¬ (st.isLnk = true ∧ flags &&& oNofollow ≠ 0) := by
  simp only [Accepts, Except.ok.injEq, Lookup.inode.injEq, exists_eq_left', not_and_or, ne_eq,
    Bool.not_eq_false, Bool.not_eq_true, not_not]

def hostFile : FileStat := ⟨7, 0o100644, 5⟩

end Tebako
