import Tebako.Common
import Tebako.Data.OrderedMap

namespace Tebako

open Data.LexicalPath Data.OrderedMap

/-! The descriptors of the process, as the host hands them out. -/

/-- What a number is taken by: a memfs file that needs a number, a file of the
application, or a directory stream of the host. -/
inductive FdHolder where
  | placeholder
  | application
  | stream (dirp : Nat)
deriving DecidableEq

structure HostFd where
  isDir : Bool
  holder : FdHolder
deriving DecidableEq

/-- Numbers below `limit` can be taken. The streams are given with the number
that they read from. -/
structure HostFds where
  limit : Nat
  files : Std.ExtTreeMap Int HostFd
  streams : Std.ExtTreeMap Nat Int

/-- A call of the host on a descriptor. -/
inductive HostCall where
  | read (fd : Int)
  | pread (fd : Int)
  | readv (fd : Int)
  | lseek (fd : Int)
  | close (fd : Int)
  | fstat (fd : Int)
  | flock (fd : Int)
  | fdopendir (fd : Int)
  | openat (fd : Int) (path : CString)
  | fstatat (fd : Int) (path : CString)
deriving DecidableEq

/-- The descriptor that a call is about; with an absolute path it is about none. -/
def HostCall.fd : HostCall → Option Int
  | .read fd => some fd
  | .pread fd => some fd
  | .readv fd => some fd
  | .lseek fd => some fd
  | .close fd => some fd
  | .fstat fd => some fd
  | .flock fd => some fd
  | .fdopendir fd => some fd
  | .openat fd path => if isAbsolute path.chars then none else some fd
  | .fstatat fd path => if isAbsolute path.chars then none else some fd

namespace HostFds

variable (host : HostFds)

def lowestUnused : Option Int :=
  ((List.range host.limit).map Int.ofNat).find? fun fd => fd ∉ host.files

/-- `open`, and whatever else takes the lowest number; -1 where none is left. -/
def take (file : HostFd) : Int × HostFds :=
  match host.lowestUnused with
  | none => (-1, host)
  | some fd => (fd, { host with files := host.files.insert fd file })

/-- `dup(0)`, by which the library comes by a number. -/
def dupStdin : Int × HostFds :=
  match host.files[(0 : Int)]? with
  | none => (-1, host)
  | some stdin => host.take ⟨stdin.isDir, .placeholder⟩

def close (fd : Int) : HostFds := { host with files := host.files.erase fd }

/-- From here on the stream holds the descriptor. -/
def fdopendir (fd : Int) (dirp : Nat) : Bool × HostFds :=
  match host.files[fd]? with
  | none => (false, host)
  | some file =>
      if file.isDir then
        (true, { host with
          files := host.files.insert fd ⟨true, .stream dirp⟩
          streams := host.streams.insert dirp fd })
      else (false, host)

def opendir (dirp : Nat) : Bool × HostFds :=
  match host.lowestUnused with
  | none => (false, host)
  | some fd => (true, { host with
      files := host.files.insert fd ⟨true, .stream dirp⟩
      streams := host.streams.insert dirp fd })

def closedir (dirp : Nat) : HostFds :=
  match host.streams[dirp]? with
  | none => host
  | some fd => { host with files := host.files.erase fd, streams := host.streams.erase dirp }

variable {host} {fd : Int} {file : HostFd}

theorem lowestUnused_spec (found : host.lowestUnused = some fd) : 0 ≤ fd ∧ fd ∉ host.files := by
  have unused := List.find?_some found
  obtain ⟨number, _, rfl⟩ := List.mem_map.mp (List.mem_of_find?_eq_some found)
  exact ⟨Int.natCast_nonneg number, of_decide_eq_true unused⟩

theorem take_cases :
    (host.take file = (-1, host)) ∨
      ∃ fd, 0 ≤ fd ∧ fd ∉ host.files ∧
        host.take file = (fd, { host with files := host.files.insert fd file }) := by
  cases found : host.lowestUnused with
  | none => exact .inl (by simp only [take, found])
  | some fd =>
      obtain ⟨valid, unused⟩ := lowestUnused_spec found
      exact .inr ⟨fd, valid, unused, by simp only [take, found]⟩

theorem dupStdin_cases :
    (host.dupStdin = (-1, host)) ∨
      ∃ fd isDir, 0 ≤ fd ∧ fd ∉ host.files ∧
        host.dupStdin = (fd, { host with files := host.files.insert fd ⟨isDir, .placeholder⟩ }) := by
  cases stdin : host.files[(0 : Int)]? with
  | none => exact .inl (by simp only [dupStdin, stdin])
  | some file =>
      simp only [dupStdin, stdin]
      exact take_cases.imp_right fun ⟨fd, taken⟩ => ⟨fd, _, taken⟩

end HostFds

end Tebako
