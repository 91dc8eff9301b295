import Tebako.FdTable
import Tebako.FindInode

namespace Tebako

/-! The calls on directories: the current one, and names made and removed. -/

/-- What a call returns: 0, -1 with an error number, or a code of the library. -/
inductive CallAnswer where
  | done
  | failed (errno : Errno)
  | code (ret : Int)
deriving DecidableEq

def Lookup.ret : Lookup → Int
  | .inode _ => dwarfsIoContinue
  | .linkOutside _ _ => dwarfsSLinkOutside
  | .linkAbsolute _ _ => dwarfsSLinkAbsolute
  | .linkRelative _ _ => dwarfsSLinkRelative

def reportCwd (cwd : CString) (buf : Bool) (size : Nat) : Except Errno CString :=
  if buf = false ∧ size = 0 then .ok cwd
  else if size = 0 then .error .EINVAL
  else if size - 1 < cwd.chars.length then .error .ERANGE
  else .ok cwd

/-- `buf` tells whether there is a buffer. The host's `getcwd` works alike. -/
def tebakoGetcwd (cwd : Cwd) (hostCwd : CString) (buf : Bool) (size : Nat) : Except Errno CString :=
  if cwd.get.chars.length ≠ 0 then reportCwd cwd.get buf size
  else reportCwd hostCwd buf size

structure WorkingDir where
  cwd : Cwd
  hostCwd : CString

/-- `hostChdir` is `::chdir` with the directory that it comes to. -/
def tebakoChdir (w : World) (hostChdir : CString → Except Errno CString) (fuel : Nat)
    (path : Option CString) (dirs : WorkingDir) : Option (CallAnswer × WorkingDir) :=
  match path with
  | none => some (.failed .ENOENT, dirs)
  | some path =>
      match toTebakoPath dirs.cwd path with
      | some p =>
          (tebakoStat { w with cwd := dirs.cwd } fuel p).map fun
            | .ok (.inode st) =>
                if st.isDir then (.done, { dirs with cwd := dirs.cwd.set (some p) })
                else (.failed .ENOTDIR, dirs)
            | .ok link => (.code link.ret, dirs)
            | .error errno => (.failed errno, dirs)
      | none =>
          match hostChdir path with
          | .error errno => some (.failed errno, dirs)
          | .ok there => some (.done, { cwd := dirs.cwd.set none, hostCwd := there })

/-- A call to the host that makes or removes a name. -/
inductive HostChange where
  | mkdir (path : CString) (mode : UInt32)
  | rmdir (path : CString)
  | unlink (path : CString)
deriving DecidableEq

/-- The call ends with what the host answers to a change, or fails. -/
inductive ChangeAnswer where
  | host (change : HostChange)
  | failed (errno : Errno)
deriving DecidableEq

/-- Where a name in a memfs turns out to be a path of the host, the host is asked. -/
def changeName (change : CString → HostChange) (w : World) (fuel : Nat) (path : Option CString) :
    Option ChangeAnswer :=
  match path with
  | none => some (.failed .ENOENT)
  | some path =>
      match toTebakoPath w.cwd path with
      | none => some (.host (change path))
      | some p =>
          (dwarfsStat w fuel p true).map fun
            | .ok (.linkOutside lnk _) => .host (change lnk)
            | _ => .failed .EROFS

def tebakoMkdir (w : World) (fuel : Nat) (path : Option CString) (mode : UInt32) :
    Option ChangeAnswer :=
  changeName (.mkdir · mode) w fuel path

def tebakoRmdir (w : World) (fuel : Nat) (path : Option CString) : Option ChangeAnswer :=
  changeName .rmdir w fuel path

def tebakoUnlink (w : World) (fuel : Nat) (path : Option CString) : Option ChangeAnswer :=
  changeName .unlink w fuel path

end Tebako
