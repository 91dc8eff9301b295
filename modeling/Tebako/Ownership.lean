import Tebako.FdCalls
import Tebako.Fstatat
import Tebako.HostFds
import Tebako.KfdTable

namespace Tebako

open Data Data.LexicalPath Data.OrderedMap

/-! Who holds the numbers of the process.

A file of a memfs takes a number from the host, a copy of stdin, so that the
host hands it to nobody else. It is given back when the descriptor is destroyed. -/

structure Process where
  fdTable : FdTable
  dsTable : DsTable
  kfdTable : KfdTable
  host : HostFds

/-- What a call on a descriptor comes to: an answer of the library, or a call of the host. -/
inductive FdOutcome where
  | returned (result : CallResult)
  | host (call : HostCall)
deriving DecidableEq

def FdOutcome.calls : FdOutcome → List HostCall
  | .returned _ => []
  | .host call => [call]

/-- The calls of the host that a call is made of, and the process after it. -/
abbrev Traced (α : Type) := α × List HostCall × Process

def HostOpen.calls (call : HostOpen) : List HostCall :=
  match call.dir with
  | none => []
  | some fd => [.openat fd call.path]

/-- The memory of a new stream: where it lies, and what is in it. -/
structure StreamMemory where
  address : Nat
  memory : Vector TebakoDirent tebakoDirCacheSize

namespace Process

variable (p : Process)

/-- `is_valid_system_file_descriptor` -/
def validSystemFd (fd : Int) : Bool := p.host.files.contains fd

/-- What all the calls do with the result that the table gives. -/
def passOn (vfd : Int) (call : HostCall) (result : CallResult) : FdOutcome :=
  if result.ret = dwarfsInvalidFd then
    if p.validSystemFd vfd then .host call else .returned (.error .EBADF)
  else .returned result

def tebakoRead (memfsTable : MemfsTable) (vfd : Int) (nbyte : Nat) : FdOutcome × Process :=
  let (result, table) := p.fdTable.read memfsTable vfd nbyte
  (p.passOn vfd (.read vfd) result, { p with fdTable := table })

def tebakoPread (memfsTable : MemfsTable) (vfd : Int) (nbyte : Nat) (offset : Int) : FdOutcome :=
  p.passOn vfd (.pread vfd) (p.fdTable.pread memfsTable vfd nbyte offset)

def tebakoReadv (memfsTable : MemfsTable) (vfd : Int) (iov : Option (List Nat)) : FdOutcome × Process :=
  let (result, table) := p.fdTable.readv memfsTable vfd iov
  (p.passOn vfd (.readv vfd) result, { p with fdTable := table })

def tebakoLseek (vfd offset whence : Int) : FdOutcome × Process :=
  let (result, table) := p.fdTable.lseek vfd offset whence
  (p.passOn vfd (.lseek vfd) result, { p with fdTable := table })

/-- The attributes are those that the table has, if it has the descriptor. -/
def tebakoFstat (vfd : Int) : FdOutcome :=
  p.passOn vfd (.fstat vfd) (match p.fdTable.fstat vfd with
    | none => .invalidFd
    | some _ => { ret := dwarfsIoContinue })

def tebakoFlock (vfd : Int) (operation : BitVec 32) : FdOutcome × Process :=
  let (result, table) := p.fdTable.flock vfd operation
  (p.passOn vfd (.flock vfd) result, { p with fdTable := table })

/-- What `tebako_fstatat` asks the host about the descriptor. -/
def fstatatCalls (w : World) (fuel : Nat) (vfd : Int) (path : CString) (flag : UInt32) : List HostCall :=
  if isAbsolute path.chars ∨ vfd = atFdcwd then []
  else
    match p.fdTable.fstatat w fuel vfd path (flag &&& atSymlinkNofollow = 0) with
    | some none => if p.validSystemFd vfd then [.fstatat vfd path] else []
    | _ => []

/-! ## Opening and closing -/

/-- The erasure of a descriptor, which destroys it. -/
def closeFd (vfd : Int) : Traced Int :=
  match p.fdTable[vfd]? with
  | none => (dwarfsInvalidFd, [], p)
  | some fd => (dwarfsIoContinue, [.close fd.handle],
      { p with fdTable := (p.fdTable.close vfd).2, host := p.host.close fd.handle })

def tebakoClose (vfd : Int) : Traced FdOutcome :=
  let (ret, calls, after) := p.closeFd vfd
  let outcome := p.passOn vfd (.close vfd) { ret := ret }
  (outcome, calls ++ outcome.calls,
    if outcome = .host (.close vfd) then { after with host := after.host.close vfd } else after)

/-- A descriptor is entered in the table under the number that the host has
given for it. One that is there already is destroyed. -/
def enter (table : FdTable) (vfd : Int) : Traced Int :=
  match p.fdTable[vfd]? with
  | none => (vfd, [], { p with fdTable := table, host := p.host.dupStdin.2 })
  | some old => (vfd, [.close old.handle],
      { p with fdTable := table, host := p.host.dupStdin.2.close old.handle })

/-- Without a number for it, a descriptor is destroyed with what its new handle
happens to hold. -/
def abandon (handle : Int) : Traced Int :=
  (dwarfsIoError, [.close handle], { p with host := p.host.close handle })

/-- `hosted` is what the host has at the path: a directory or not, or nothing
that can be opened. -/
def openHost (hosted : Option Bool) (call : HostOpen) : Traced Int :=
  match hosted with
  | none => (-1, call.calls, p)
  | some isDir =>
      let (fd, host) := p.host.take ⟨isDir, .application⟩
      (fd, call.calls, { p with host := host })

/-- `handle` is what a new `int` happens to hold. -/
def opened (hosted : Option Bool) (handle : Int) : OpenOutcome × FdTable → Traced Int
  | (.returned vfd, table) => p.enter table vfd
  | (.failed _, _) => (dwarfsIoError, [], p)
  | (.exhausted, _) => p.abandon handle
  | (.host call, _) => p.openHost hosted call

def tebakoOpen (w : World) (fuel : Nat) (path : Option CString) (flags : UInt32) (mode : Option UInt32)
    (hosted : Option Bool) (handle : Int) : Option (Traced Int) :=
  (Tebako.tebakoOpen w fuel path flags mode p.host.dupStdin.1 p.fdTable).map (p.opened hosted handle)

def tebakoOpenat (w : World) (fuel : Nat) (vfd : Int) (path : CString) (flags : UInt32)
    (mode : Option UInt32) (hosted : Option Bool) (handle : Int) : Option (Traced Int) :=
  (Tebako.tebakoOpenat w fuel vfd path flags mode p.host.dupStdin.1 p.fdTable).map
    (p.opened hosted handle)

/-! ## Directory streams -/

def openStream (w : World) (vfd : Int) (into : StreamMemory) : Nat × Process :=
  let (dirp, _, table) := p.dsTable.opendir p.fdTable w.memfsTable vfd into.address into.memory
  (dirp, { p with dsTable := table })

/-- A stream of the host is noted down; 0 is the null pointer. -/
def hostStream (opened : Bool × HostFds) (dirp : Nat) : Nat × Process :=
  if opened.1 then (dirp, { p with kfdTable := p.kfdTable.insert dirp, host := opened.2 })
  else (0, p)

/-- Whether the host has a directory at the path is up to `hosted`. -/
def openHostDir (hosted : Bool) (into : StreamMemory) : Nat × Process :=
  if hosted then p.hostStream (p.host.opendir into.address) into.address else (0, p)

/-- Opens the directory, and hands what becomes of it to the next function. -/
def openDir (w : World) (fuel : Nat) (path : CString) (handle : Int) :
    Option (Traced (Option CString × Int)) :=
  (p.fdTable.open w fuel path oDirectory p.host.dupStdin.1).map fun (answer, table) =>
    match answer with
    | .opened vfd =>
        let (vfd, calls, after) := p.enter table vfd
        ((none, vfd), calls, after)
    | .linkOutside lnk => ((some lnk, dwarfsSLinkOutside), [], p)
    | .failed _ => ((none, dwarfsIoError), [], p)
    | .exhausted =>
        let (ret, calls, after) := p.abandon handle
        ((none, ret), calls, after)
    | .invalidFd => ((none, dwarfsInvalidFd), [], p)

def tebakoOpendir (w : World) (fuel : Nat) (dirname : Option CString) (hosted : Bool) (handle : Int)
    (into : StreamMemory) : Option (Traced Nat) :=
  match dirname with
  | none => some (0, [], p)
  | some dirname =>
      match toTebakoPath w.cwd dirname with
      | none =>
          let (dirp, after) := p.openHostDir hosted into
          some (dirp, [], after)
      | some path =>
          (p.openDir w fuel path handle).map fun ((outside, vfd), calls, after) =>
            if outside.isSome then
              let (dirp, after) := after.openHostDir hosted into
              (dirp, calls, after)
            else if vfd < 0 then (0, calls, after)
            else
              let (dirp, after) := after.openStream w vfd into
              (dirp, calls, after)

/-- What the library does not know as a directory of its own goes to the host. -/
def tebakoFdopendir (w : World) (vfd : Int) (into : StreamMemory) : Traced Nat :=
  let (dirp, after) := p.openStream w vfd into
  if dirp ≠ 0 then (dirp, [], after)
  else
    let (dirp, after) := after.hostStream (after.host.fdopendir vfd into.address) into.address
    (dirp, [.fdopendir vfd], after)

/-- `sync_tebako_dstable::closedir` -/
def closeStream (dirp : Nat) : Traced Int :=
  match p.dsTable[dirp]? with
  | none => (dwarfsInvalidFd, [], p)
  | some ds =>
      let (ret, calls, after) := p.closeFd ds.vfd
      (ret, calls, { after with dsTable := after.dsTable.erase dirp })

def tebakoClosedir (dirp : Nat) : Traced Int :=
  let (ret, calls, after) := p.closeStream dirp
  if ret = dwarfsInvalidFd then
    if after.kfdTable.check dirp then
      (0, calls ++ (after.host.streams[dirp]?.map HostCall.close).toList,
        { after with kfdTable := after.kfdTable.erase dirp, host := after.host.closedir dirp })
    else (dwarfsIoError, calls, after)
  else (ret, calls, after)

/-- The loop of `tebako_scandir`: the entries that the filter takes, in order. -/
def scanEntries (w : World) (sel : TebakoDirent → Bool) (dirp : Nat) :
    Nat → DsTable → Option (List TebakoDirent × DsTable)
  | 0, _ => none
  | fuel + 1, table =>
      match table.readdir p.fdTable w.memfsTable dirp with
      | ((_, some (some entry)), table) =>
          (scanEntries w sel dirp fuel table).map fun (list, table) =>
            (if sel entry then entry :: list else list, table)
      | ((_, some none), table) => scanEntries w sel dirp fuel table
      | ((_, none), table) => some ([], table)

/-- Nothing, where no list is made; the host's own `scandir` leaves no
descriptor behind. -/
def tebakoScandir (w : World) (fuel : Nat) (dirname : Option CString) (wanted : Bool)
    (sel : TebakoDirent → Bool) (handle : Int) (into : StreamMemory) :
    Option (Traced (Option (List TebakoDirent))) :=
  match dirname with
  | none => some (none, [], p)
  | some dirname =>
      match toTebakoPath w.cwd dirname with
      | none => some (none, [], p)
      | some path =>
          (p.openDir w fuel path handle).bind fun ((_, vfd), calls, after) =>
            if vfd < 0 ∨ wanted = false then some (none, calls, after)
            else
              let (dirp, after) := after.openStream w vfd into
              if dirp = 0 then some (none, calls, after)
              else
                (after.scanEntries w sel dirp fuel after.dsTable).map fun (list, table) =>
                  let (_, more, after) := { after with dsTable := table }.closeStream dirp
                  (some list, calls ++ more, after)

end Process

/-- The calls of a program. The state of the memfs, the rest of the host and
what memory holds are arbitrary at each of them. -/
inductive FileOp where
  | openFile (w : World) (fuel : Nat) (path : Option CString) (flags : UInt32) (mode : Option UInt32)
      (hosted : Option Bool) (handle : Int)
  | openAt (w : World) (fuel : Nat) (vfd : Int) (path : CString) (flags : UInt32)
      (mode : Option UInt32) (hosted : Option Bool) (handle : Int)
  | close (vfd : Int)
  | read (memfsTable : MemfsTable) (vfd : Int) (nbyte : Nat)
  | pread (memfsTable : MemfsTable) (vfd : Int) (nbyte : Nat) (offset : Int)
  | readv (memfsTable : MemfsTable) (vfd : Int) (iov : Option (List Nat))
  | lseek (vfd : Int) (offset : Int64) (whence : Int)
  | fstat (vfd : Int)
  | fstatat (w : World) (fuel : Nat) (vfd : Int) (path : CString) (flag : UInt32)
  | flock (vfd : Int) (operation : BitVec 32)
  | opendir (w : World) (fuel : Nat) (dirname : Option CString) (hosted : Bool) (handle : Int)
      (into : StreamMemory)
  | fdopendir (w : World) (vfd : Int) (into : StreamMemory)
  | closedir (dirp : Nat)
  | scandir (w : World) (fuel : Nat) (dirname : Option CString) (wanted : Bool)
      (sel : TebakoDirent → Bool) (handle : Int) (into : StreamMemory)

/-- Where the stream lies that the operation may open. -/
def FileOp.memory : FileOp → Option StreamMemory
  | .opendir _ _ _ _ _ into => some into
  | .fdopendir _ _ into => some into
  | .scandir _ _ _ _ _ _ into => some into
  | _ => none

/-- A call that does not come to its end leaves the process alone. -/
def traced {α : Type} (p : Process) : Option (Traced α) → List HostCall × Process
  | none => ([], p)
  | some (_, calls, after) => (calls, after)

/-- The calls of the host that an operation makes. -/
def processStep : Machine Process FileOp (List HostCall)
  | .openFile w fuel path flags mode hosted handle, p =>
      traced p (p.tebakoOpen w fuel path flags mode hosted handle)
  | .openAt w fuel vfd path flags mode hosted handle, p =>
      traced p (p.tebakoOpenat w fuel vfd path flags mode hosted handle)
  | .close vfd, p => (p.tebakoClose vfd).2
  | .read memfsTable vfd nbyte, p => (p.tebakoRead memfsTable vfd nbyte).map FdOutcome.calls id
  | .pread memfsTable vfd nbyte offset, p => ((p.tebakoPread memfsTable vfd nbyte offset).calls, p)
  | .readv memfsTable vfd iov, p => (p.tebakoReadv memfsTable vfd iov).map FdOutcome.calls id
  | .lseek vfd offset whence, p => (p.tebakoLseek vfd offset.toInt whence).map FdOutcome.calls id
  | .fstat vfd, p => ((p.tebakoFstat vfd).calls, p)
  | .fstatat w fuel vfd path flag, p => (p.fstatatCalls w fuel vfd path flag, p)
  | .flock vfd operation, p => (p.tebakoFlock vfd operation).map FdOutcome.calls id
  | .opendir w fuel dirname hosted handle into, p =>
      traced p (p.tebakoOpendir w fuel dirname hosted handle into)
  | .fdopendir w vfd into, p => (p.tebakoFdopendir w vfd into).2
  | .closedir dirp, p => (p.tebakoClosedir dirp).2
  | .scandir w fuel dirname wanted sel handle into, p =>
      traced p (p.tebakoScandir w fuel dirname wanted sel handle into)

/-! ## Ownership -/

namespace Process

/-- Each number of the table is held by its own placeholder, and no address is
that of a stream of both kinds. -/
structure Owned (p : Process) : Prop where
  held : ∀ (vfd : Int) (fd : TebakoFd), p.fdTable[vfd]? = some fd →
    fd.handle = vfd ∧ ∃ isDir, p.host.files[vfd]? = some ⟨isDir, .placeholder⟩
  apart : ∀ dirp ∈ p.dsTable, dirp ∉ p.kfdTable

/-- None of the calls is about a number of the table. -/
def Untouched (p : Process) (calls : List HostCall) : Prop :=
  ∀ call ∈ calls, ∀ fd, call.fd = some fd → fd ∉ p.fdTable

/-- A new stream does not lie where another one lies. -/
def Places (p : Process) (into : StreamMemory) : Prop :=
  into.address ≠ 0 ∧ into.address ∉ p.dsTable ∧ into.address ∉ p.kfdTable

def Allocates (p : Process) (op : FileOp) : Prop := ∀ into, op.memory = some into → p.Places into

/-- Where an opening is left without a number, its new handle does not happen
to hold one of the table. -/
def Spares {α : Type} [DecidableEq α] (p : Process) (handle : Int) (exhausted : α)
    (result : Option (α × FdTable)) : Prop :=
  result.map Prod.fst = some exhausted → handle ∉ p.fdTable

def SparesDir (p : Process) (w : World) (fuel : Nat) (dirname : Option CString) (handle : Int) : Prop :=
  ∀ name path, dirname = some name → toTebakoPath w.cwd name = some path →
    p.Spares handle .exhausted (p.fdTable.open w fuel path oDirectory p.host.dupStdin.1)

/-- Of a descriptor of the table, only a directory that can be read is made a
stream; no stream of the host is closed whose number has been closed before and
is one of the table by now; and no position is asked for that looks like an error. -/
def Permits (p : Process) : FileOp → Prop
  | .openFile w fuel path flags mode _ handle =>
      p.Spares handle .exhausted
        (Tebako.tebakoOpen w fuel path flags mode p.host.dupStdin.1 p.fdTable)
  | .openAt w fuel vfd path flags mode _ handle =>
      p.Spares handle .exhausted
        (Tebako.tebakoOpenat w fuel vfd path flags mode p.host.dupStdin.1 p.fdTable)
  | .lseek vfd offset whence => ∀ fd, p.fdTable[vfd]? = some fd →
      ¬ FdTable.SeeksSentinel fd offset.toInt whence
  | .opendir w fuel dirname _ handle _ => p.SparesDir w fuel dirname handle
  | .fdopendir w vfd into => vfd ∈ p.fdTable → (p.openStream w vfd into).1 ≠ 0
  | .closedir dirp => dirp ∈ p.kfdTable → ∀ fd, p.host.streams[dirp]? = some fd → fd ∉ p.fdTable
  | .scandir w fuel dirname _ _ handle _ => p.SparesDir w fuel dirname handle
  | .close _ => True
  | .read _ _ _ => True
  | .pread _ _ _ _ => True
  | .readv _ _ _ => True
  | .fstat _ => True
  | .fstatat _ _ _ _ _ => True
  | .flock _ _ => True

variable {p after : Process} {calls more : List HostCall} {vfd ret handle : Int} {fd : TebakoFd}
variable {table : FdTable} {host : HostFds}

@[simp] theorem untouched_nil : p.Untouched [] := by simp [Untouched]

@[simp] theorem untouched_append :
    p.Untouched (calls ++ more) ↔ p.Untouched calls ∧ p.Untouched more := by
  simp only [Untouched, List.mem_append]
  constructor
  · exact fun both => ⟨fun call listed => both call (.inl listed), fun call listed => both call (.inr listed)⟩
  · exact fun both call listed => listed.elim (both.1 call) (both.2 call)

theorem Owned.of_kept (owned : p.Owned)
    (kept : ∀ vfd ∈ p.fdTable, host.files[vfd]? = p.host.files[vfd]?) :
    Owned { p with host := host } where
  held vfd fd there := by
    obtain ⟨own, isDir, placed⟩ := owned.held vfd fd there
    exact ⟨own, isDir, (kept vfd (mem_of_getElem? there)).trans placed⟩
  apart := owned.apart

theorem Owned.mem_files (owned : p.Owned) (there : vfd ∈ p.fdTable) : vfd ∈ p.host.files := by
  obtain ⟨fd, there⟩ := exists_of_mem there
  obtain ⟨_, _, placed⟩ := owned.held vfd fd there
  exact mem_of_getElem? placed

theorem mem_of_sameHandles (same : FdTable.SameHandles table p.fdTable) :
    vfd ∈ p.fdTable ↔ vfd ∈ table := by
  rw [Std.ExtTreeMap.mem_iff_isSome_getElem?, Std.ExtTreeMap.mem_iff_isSome_getElem?,
    ← Option.isSome_map, same vfd, Option.isSome_map]

theorem Owned.sameHandles (owned : p.Owned) (same : FdTable.SameHandles p.fdTable table) :
    Owned { p with fdTable := table } where
  held vfd fd there := by
    have handles := same vfd
    rw [there, Option.map_some] at handles
    obtain ⟨before, held, own⟩ := Option.map_eq_some_iff.mp handles.symm
    rw [← own]
    exact owned.held vfd before held
  apart := owned.apart

/-! ### Calls on a descriptor -/

theorem untouched_passOn {call : HostCall} {result : CallResult} (about : call.fd = some vfd)
    (known : vfd ∈ after.fdTable → result.ret ≠ dwarfsInvalidFd) :
    after.Untouched (p.passOn vfd call result).calls := by
  intro other listed number same
  unfold passOn at listed
  split at listed
  · rename_i invalid
    split at listed
    · obtain rfl := List.mem_singleton.mp listed
      obtain rfl : vfd = number := Option.some.inj (about.symm.trans same)
      exact fun there => known there invalid
    · cases listed
  · cases listed

theorem sound_passOn {call : HostCall} {result : CallResult} (owned : p.Owned)
    (about : call.fd = some vfd) (same : FdTable.SameHandles p.fdTable table)
    (known : ∀ fd, p.fdTable[vfd]? = some fd → result.ret ≠ dwarfsInvalidFd) :
    Owned { p with fdTable := table } ∧
      Untouched { p with fdTable := table } (p.passOn vfd call result).calls := by
  refine ⟨owned.sameHandles same, untouched_passOn about fun there => ?_⟩
  obtain ⟨fd, held⟩ := exists_of_mem ((@mem_of_sameHandles { p with fdTable := table } _ _ same).mp there)
  exact known fd held

theorem closeFd_cases :
    (p.fdTable[vfd]? = none ∧ p.closeFd vfd = (dwarfsInvalidFd, [], p)) ∨
      ∃ fd, p.fdTable[vfd]? = some fd ∧
        p.closeFd vfd = (dwarfsIoContinue, [.close fd.handle], { p with
          fdTable := Std.ExtTreeMap.erase p.fdTable vfd
          host := p.host.close fd.handle }) := by
  cases held : p.fdTable[vfd]? with
  | none => exact .inl ⟨rfl, by simp only [closeFd, held]⟩
  | some fd => exact .inr ⟨fd, rfl, by simp only [closeFd, held, FdTable.close]⟩

/-- A descriptor is destroyed: its number goes back to the host. -/
theorem Owned.erase (owned : p.Owned) (held : p.fdTable[vfd]? = some fd) :
    Owned { p with
      fdTable := Std.ExtTreeMap.erase p.fdTable vfd
      host := p.host.close fd.handle } ∧
      Untouched { p with
        fdTable := Std.ExtTreeMap.erase p.fdTable vfd
        host := p.host.close fd.handle } [.close fd.handle] := by
  have own := (owned.held vfd fd held).1
  rw [own]
  constructor
  · constructor
    · intro other file there
      obtain ⟨different, before⟩ := getElem?_erase_iff.mp there
      obtain ⟨self, isDir, placed⟩ := owned.held other file before
      exact ⟨self, isDir, getElem?_erase_iff.mpr ⟨different, placed⟩⟩
    · exact owned.apart
  · intro call listed number same
    obtain rfl := List.mem_singleton.mp listed
    obtain rfl : vfd = number := Option.some.inj same
    simp

theorem closeFd_sound (owned : p.Owned) (closed : p.closeFd vfd = (ret, calls, after)) :
    after.Owned ∧ after.Untouched calls ∧ (∀ other ∈ after.fdTable, other ∈ p.fdTable) ∧
      after.dsTable = p.dsTable ∧ after.kfdTable = p.kfdTable := by
  rcases @closeFd_cases p vfd with ⟨missing, result⟩ | ⟨fd, held, result⟩
  · cases closed.symm.trans result
    exact ⟨owned, untouched_nil, fun _ there => there, rfl, rfl⟩
  · cases closed.symm.trans result
    obtain ⟨kept, untouched⟩ := owned.erase held
    exact ⟨kept, untouched, fun _ there => Std.ExtTreeMap.mem_of_mem_erase there, rfl, rfl⟩

theorem tebakoClose_sound (owned : p.Owned) :
    (p.tebakoClose vfd).2.2.Owned ∧ (p.tebakoClose vfd).2.2.Untouched (p.tebakoClose vfd).2.1 := by
  rcases @closeFd_cases p vfd with ⟨missing, result⟩ | ⟨fd, held, result⟩
  · have absent : vfd ∉ p.fdTable := fun there => by
      obtain ⟨fd, held⟩ := exists_of_mem there
      rw [missing] at held
      cases held
    simp only [tebakoClose, result, List.nil_append]
    split
    · refine ⟨owned.of_kept fun other there => ?_, untouched_passOn rfl fun there => absurd there absent⟩
      exact getElem?_erase_ne (ne_of_mem_of_not_mem there absent)
    · exact ⟨owned, untouched_passOn rfl fun there => absurd there absent⟩
  · have answered : p.passOn vfd (.close vfd) { ret := dwarfsIoContinue } =
        .returned { ret := dwarfsIoContinue } := rfl
    simp only [tebakoClose, result, answered, reduceCtorEq, ↓reduceIte]
    exact owned.erase held

/-! ### Openings -/

/-- The number is the one from the host, and the table has got this entry for it. -/
def Enters (p : Process) (vfd : Int) (table : FdTable) : Prop :=
  vfd = p.host.dupStdin.1 ∧ vfd ≠ dwarfsIoError ∧
    ∃ st, table = Std.ExtTreeMap.insert p.fdTable vfd ⟨st, 0, 0, vfd⟩

theorem enter_sound (owned : p.Owned) (enters : p.Enters vfd table) :
    p.enter table vfd = (vfd, [], { p with fdTable := table, host := p.host.dupStdin.2 }) ∧
      Owned { p with fdTable := table, host := p.host.dupStdin.2 } := by
  obtain ⟨rfl, valid, st, rfl⟩ := enters
  rcases p.host.dupStdin_cases with failed | ⟨fd, isDir, _, unused, taken⟩
  · rw [failed] at valid
    exact absurd rfl valid
  · rw [taken]
    have absent : p.fdTable[fd]? = none :=
      Std.ExtTreeMap.getElem?_eq_none fun there => unused (owned.mem_files there)
    refine ⟨by simp only [enter, absent, taken], ?_, owned.apart⟩
    intro other file there
    rcases getElem?_insert_iff.mp there with ⟨rfl, own⟩ | ⟨different, before⟩
    · cases own
      exact ⟨rfl, isDir, Std.ExtTreeMap.getElem?_insert_self⟩
    · obtain ⟨self, isDir, placed⟩ := owned.held other file before
      exact ⟨self, isDir, getElem?_insert_iff.mpr (.inr ⟨different, placed⟩)⟩

theorem insert_kept {file : HostFd} (owned : p.Owned) {number : Int} (unused : number ∉ p.host.files) :
    ∀ vfd ∈ p.fdTable, (p.host.files.insert number file)[vfd]? = p.host.files[vfd]? := by
  intro vfd there
  exact getElem?_insert_ne (ne_of_mem_of_not_mem (owned.mem_files there) unused)

theorem take_kept {file : HostFd} (owned : p.Owned) :
    ∀ vfd ∈ p.fdTable, (p.host.take file).2.files[vfd]? = p.host.files[vfd]? := by
  rcases @HostFds.take_cases p.host file with same | ⟨fd, _, unused, taken⟩
  · intro vfd _
    rw [same]
  · rw [taken]
    exact insert_kept owned unused

theorem openHost_sound {hosted : Option Bool} {call : HostOpen} (owned : p.Owned)
    (untouched : p.Untouched call.calls) :
    (p.openHost hosted call).2.2.Owned ∧
      (p.openHost hosted call).2.2.Untouched (p.openHost hosted call).2.1 := by
  cases hosted with
  | none => exact ⟨owned, untouched⟩
  | some isDir => exact ⟨owned.of_kept (take_kept owned), untouched⟩

theorem close_kept (absent : handle ∉ p.fdTable) :
    ∀ vfd ∈ p.fdTable, (p.host.close handle).files[vfd]? = p.host.files[vfd]? := by
  intro vfd there
  exact getElem?_erase_ne (ne_of_mem_of_not_mem there absent)

theorem abandon_sound (owned : p.Owned) (absent : handle ∉ p.fdTable) :
    (p.abandon handle).2.2.Owned ∧ (p.abandon handle).2.2.Untouched (p.abandon handle).2.1 := by
  refine ⟨owned.of_kept (close_kept absent), ?_⟩
  intro call listed number same
  obtain rfl := List.mem_singleton.mp listed
  obtain rfl : handle = number := Option.some.inj same
  exact absent

/-! What an opening comes to, of the lookup and the number from the host. -/

section Answers

variable {w : World} {fuel : Nat} {path lnk : CString} {flags : UInt32} {mode : Option UInt32}
variable {found : Except Errno Lookup} {before : FdTable} {dup : Int} {call : HostOpen}

theorem openat_cases {answer : OpenAnswer}
    (answered : before.openat w fuel vfd path flags dup = some (answer, table)) :
    (before.fstat vfd = none ∧ answer = .invalidFd) ∨ (∃ errno, answer = .failed errno) ∨
      ∃ stfd found, before.fstat vfd = some stfd ∧
        dwarfsInodeRelativeStat w fuel stfd.ino.toUInt32 path (flags &&& oNofollow = 0) = some found ∧
        before.openFound found flags dup = (answer, table) := by
  simp only [FdTable.openat] at answered
  split at answered
  · cases answered
    exact .inl ⟨‹_›, rfl⟩
  · rename_i stfd held
    split at answered
    · cases answered
      exact .inr (.inl ⟨_, rfl⟩)
    · split at answered
      · cases answered
        exact .inr (.inl ⟨_, rfl⟩)
      · obtain ⟨found, ran, same⟩ := Option.map_eq_some_iff.mp answered
        exact .inr (.inr ⟨stfd, found, held, ran, same⟩)

theorem fstat_none (missing : before.fstat vfd = none) : vfd ∉ before := by
  intro there
  obtain ⟨fd, held⟩ := exists_of_mem there
  simp [FdTable.fstat, held] at missing

/-- What is entered is what the host has given, and a call of the host is about
no descriptor of the table. -/
structure Answered (before : FdTable) (dup : Int) (outcome : OpenOutcome) (table : FdTable) : Prop where
  returned : ∀ vfd, outcome = .returned vfd →
    vfd = dup ∧ vfd ≠ dwarfsIoError ∧ ∃ st, table = Std.ExtTreeMap.insert before vfd ⟨st, 0, 0, vfd⟩
  called : ∀ call, outcome = .host call → ∀ fd, call.dir = some fd →
    isAbsolute call.path.chars = true ∨ fd ∉ before

variable {outcome : OpenOutcome}

theorem answered_failed {errno : Errno} : Answered before dup (.failed errno) table where
  returned := nofun
  called := nofun

theorem answered_exhausted : Answered before dup .exhausted table where
  returned := nofun
  called := nofun

theorem answered_host (called : ∀ fd, call.dir = some fd → isAbsolute call.path.chars = true ∨ fd ∉ before) :
    Answered before dup (.host call) table where
  returned := nofun
  called other same := by
    cases same
    exact called

theorem answered_opened (entered : before.openFound found flags dup = (.opened vfd, table)) :
    Answered before dup (.returned vfd) table where
  returned other same := by
    cases same
    obtain ⟨given, valid, st, _, inserted⟩ := openFound_opened entered
    exact ⟨given, valid, st, inserted⟩
  called := nofun

theorem tebakoOpen_answered {name : Option CString}
    (answered : Tebako.tebakoOpen w fuel name flags mode dup before = some (outcome, table)) :
    Answered before dup outcome table := by
  cases name with
  | none =>
      cases answered
      exact answered_failed
  | some name =>
      cases known : toTebakoPath w.cwd name with
      | none =>
          simp only [Tebako.tebakoOpen, known, Option.some.injEq, Prod.mk.injEq] at answered
          obtain ⟨rfl, _⟩ := answered
          exact answered_host fun _ dir => by cases dir
      | some path =>
          simp only [Tebako.tebakoOpen, known] at answered
          obtain ⟨⟨answer, after⟩, opened, same⟩ := Option.map_eq_some_iff.mp answered
          obtain ⟨found, _, entered⟩ := Option.map_eq_some_iff.mp opened
          cases same
          cases answer with
          | opened number => exact answered_opened entered
          | linkOutside lnk => exact answered_host fun _ dir => by cases dir
          | failed errno => exact answered_failed
          | exhausted => exact answered_exhausted
          | invalidFd => exact absurd (congrArg Prod.fst entered) openFound_valid

theorem tebakoOpenat_answered
    (answered : Tebako.tebakoOpenat w fuel vfd path flags mode dup before = some (outcome, table)) :
    Answered before dup outcome table := by
  unfold Tebako.tebakoOpenat at answered
  split at answered
  · obtain ⟨⟨answer, after⟩, opened, same⟩ := Option.map_eq_some_iff.mp answered
    cases same
    rcases openat_cases opened with ⟨missing, rfl⟩ | ⟨errno, rfl⟩ | ⟨stfd, found, _, ran, entered⟩
    · refine answered_host fun fd dir => .inr ?_
      cases dir
      exact fstat_none missing
    · exact answered_failed
    · cases answer with
      | opened number => exact answered_opened entered
      | linkOutside lnk =>
          obtain ⟨st, rfl⟩ := openFound_outside (congrArg Prod.fst entered)
          exact answered_host fun _ _ => .inl (relative_outside ran).1
      | failed errno => exact answered_failed
      | exhausted => exact answered_exhausted
      | invalidFd => exact absurd (congrArg Prod.fst entered) openFound_valid
  · exact tebakoOpen_answered answered

theorem opened_sound {hosted : Option Bool} (owned : p.Owned)
    (answered : Answered p.fdTable p.host.dupStdin.1 outcome table)
    (spares : outcome = .exhausted → handle ∉ p.fdTable) :
    (p.opened hosted handle (outcome, table)).2.2.Owned ∧
      (p.opened hosted handle (outcome, table)).2.2.Untouched
        (p.opened hosted handle (outcome, table)).2.1 := by
  cases outcome with
  | returned vfd =>
      obtain ⟨entered, owned⟩ := enter_sound owned (answered.returned vfd rfl)
      simp only [opened, entered]
      exact ⟨owned, untouched_nil⟩
  | failed errno => exact ⟨owned, untouched_nil⟩
  | exhausted => exact abandon_sound owned (spares rfl)
  | host call =>
      refine openHost_sound owned fun issued listed fd about => ?_
      cases dir : call.dir with
      | none => simp [HostOpen.calls, dir] at listed
      | some number =>
          simp only [HostOpen.calls, dir, List.mem_singleton] at listed
          subst listed
          simp only [HostCall.fd] at about
          split at about
          · cases about
          · rename_i relative
            cases about
            exact (answered.called call rfl _ dir).resolve_left relative

theorem openDir_sound {outside : Option CString} (owned : p.Owned)
    (spares : p.Spares handle .exhausted (p.fdTable.open w fuel path oDirectory p.host.dupStdin.1))
    (done : p.openDir w fuel path handle = some ((outside, vfd), calls, after)) :
    after.Owned ∧ after.Untouched calls ∧ after.dsTable = p.dsTable ∧ after.kfdTable = p.kfdTable := by
  obtain ⟨⟨answer, table⟩, opened, same⟩ := Option.map_eq_some_iff.mp done
  cases answer with
  | opened number =>
      obtain ⟨found, _, found_opened⟩ := Option.map_eq_some_iff.mp opened
      obtain ⟨entered, owned⟩ := enter_sound owned ((answered_opened found_opened).returned number rfl)
      simp only [entered] at same
      cases same
      exact ⟨owned, untouched_nil, rfl, rfl⟩
  | linkOutside lnk =>
      cases same
      exact ⟨owned, untouched_nil, rfl, rfl⟩
  | failed errno =>
      cases same
      exact ⟨owned, untouched_nil, rfl, rfl⟩
  | exhausted =>
      obtain ⟨kept, untouched⟩ := abandon_sound owned (spares (by rw [opened, Option.map_some]))
      cases same
      exact ⟨kept, untouched, rfl, rfl⟩
  | invalidFd =>
      cases same
      exact ⟨owned, untouched_nil, rfl, rfl⟩

end Answers

/-! ### Streams -/

section Streams

variable {w : World} {fuel dirp : Nat} {into : StreamMemory} {dirname : Option CString}

theorem openStream_cases :
    p.openStream w vfd into = (0, p) ∨ ∃ ds, p.openStream w vfd into =
      (into.address, { p with dsTable := Std.ExtTreeMap.insert p.dsTable into.address ds }) := by
  simp only [openStream, DsTable.opendir]
  split
  · exact .inr ⟨_, rfl⟩
  · exact .inl rfl

theorem Owned.openStream (owned : p.Owned) (unknown : into.address ∉ p.kfdTable) :
    (p.openStream w vfd into).2.Owned ∧ (p.openStream w vfd into).2.fdTable = p.fdTable := by
  rcases @openStream_cases p vfd w into with same | ⟨ds, same⟩
  · rw [same]
    exact ⟨owned, rfl⟩
  · rw [same]
    refine ⟨⟨owned.held, fun dirp there => ?_⟩, rfl⟩
    rcases mem_insert_iff.mp there with here | before
    · rw [here]
      exact unknown
    · exact owned.apart dirp before

theorem hostStream_sound {opened : Bool × HostFds} (owned : p.Owned) (unknown : dirp ∉ p.dsTable)
    (kept : ∀ vfd ∈ p.fdTable, opened.2.files[vfd]? = p.host.files[vfd]?) :
    (p.hostStream opened dirp).2.Owned ∧ (p.hostStream opened dirp).2.fdTable = p.fdTable := by
  unfold hostStream
  split
  · refine ⟨⟨(owned.of_kept kept).held, fun other there known => ?_⟩, rfl⟩
    rcases KfdTable.mem_insert.mp known with rfl | before
    · exact unknown there
    · exact owned.apart other there before
  · exact ⟨owned, rfl⟩

theorem openHostDir_sound {hosted : Bool} (owned : p.Owned) (unknown : into.address ∉ p.dsTable) :
    (p.openHostDir hosted into).2.Owned ∧ (p.openHostDir hosted into).2.fdTable = p.fdTable := by
  unfold openHostDir
  split
  · refine hostStream_sound owned unknown ?_
    unfold HostFds.opendir
    cases found : p.host.lowestUnused with
    | none => exact fun _ _ => rfl
    | some fd => exact insert_kept owned (HostFds.lowestUnused_spec found).2
  · exact ⟨owned, rfl⟩

theorem tebakoOpendir_sound {hosted : Bool} {result : Traced Nat} (owned : p.Owned)
    (places : p.Places into) (spares : p.SparesDir w fuel dirname handle)
    (done : p.tebakoOpendir w fuel dirname hosted handle into = some result) :
    result.2.2.Owned ∧ result.2.2.Untouched result.2.1 := by
  obtain ⟨_, unknown, unlisted⟩ := places
  cases dirname with
  | none =>
      cases done
      exact ⟨owned, untouched_nil⟩
  | some name =>
      cases known : toTebakoPath w.cwd name with
      | none =>
          simp only [tebakoOpendir, known, Option.some.injEq] at done
          subst done
          exact ⟨(openHostDir_sound owned unknown).1, untouched_nil⟩
      | some path =>
          simp only [tebakoOpendir, known] at done
          obtain ⟨⟨⟨outside, vfd⟩, calls, after⟩, opened, same⟩ := Option.map_eq_some_iff.mp done
          obtain ⟨owned, untouched, streams, listed⟩ :=
            openDir_sound owned (spares name path rfl known) opened
          rw [← streams] at unknown
          rw [← listed] at unlisted
          simp only at same
          split at same
          · subst same
            obtain ⟨kept, table⟩ := @openHostDir_sound after into hosted owned unknown
            exact ⟨kept, by rwa [Untouched, table]⟩
          · split at same
            · subst same
              exact ⟨owned, untouched⟩
            · subst same
              obtain ⟨kept, table⟩ := @Owned.openStream after vfd w into owned unlisted
              exact ⟨kept, by rwa [Untouched, table]⟩

theorem tebakoFdopendir_sound (owned : p.Owned) (places : p.Places into)
    (reads : vfd ∈ p.fdTable → (p.openStream w vfd into).1 ≠ 0) :
    (p.tebakoFdopendir w vfd into).2.2.Owned ∧
      (p.tebakoFdopendir w vfd into).2.2.Untouched (p.tebakoFdopendir w vfd into).2.1 := by
  obtain ⟨valid, unknown, unlisted⟩ := places
  rcases @openStream_cases p vfd w into with same | ⟨ds, same⟩
  · have absent : vfd ∉ p.fdTable := by
      intro there
      exact reads there (congrArg Prod.fst same)
    simp only [tebakoFdopendir, same, ne_eq, not_true_eq_false, ↓reduceIte]
    have kept : ∀ number ∈ p.fdTable,
        (p.host.fdopendir vfd into.address).2.files[number]? = p.host.files[number]? := by
      intro number there
      unfold HostFds.fdopendir
      split
      · rfl
      · split
        · exact getElem?_insert_ne (ne_of_mem_of_not_mem there absent)
        · rfl
    obtain ⟨owned, table⟩ := @hostStream_sound p into.address _ owned unknown kept
    refine ⟨owned, ?_⟩
    intro call listed number about
    obtain rfl := List.mem_singleton.mp listed
    obtain rfl : vfd = number := Option.some.inj about
    rwa [table]
  · have kept := (@Owned.openStream p vfd w into owned unlisted).1
    rw [same] at kept
    simp only [tebakoFdopendir, same, ne_eq, valid, not_false_eq_true, ↓reduceIte]
    exact ⟨kept, untouched_nil⟩

theorem closeStream_sound (owned : p.Owned) (closed : p.closeStream dirp = (ret, calls, after)) :
    after.Owned ∧ after.Untouched calls ∧ (∀ other ∈ after.fdTable, other ∈ p.fdTable) ∧
      after.kfdTable = p.kfdTable ∧ (dirp ∈ p.dsTable ∨ after = p) := by
  cases held : p.dsTable[dirp]? with
  | none =>
      simp only [closeStream, held] at closed
      cases closed
      exact ⟨owned, untouched_nil, fun _ there => there, rfl, .inr rfl⟩
  | some ds =>
      simp only [closeStream, held] at closed
      cases closed
      obtain ⟨kept, untouched, fewer, _, listed⟩ := closeFd_sound owned (rfl : p.closeFd ds.vfd = _)
      refine ⟨⟨kept.held, fun other there => ?_⟩, untouched, fewer, listed, .inl (mem_of_getElem? held)⟩
      exact kept.apart other (Std.ExtTreeMap.mem_of_mem_erase there)

theorem tebakoClosedir_sound (owned : p.Owned)
    (permitted : dirp ∈ p.kfdTable → ∀ fd, p.host.streams[dirp]? = some fd → fd ∉ p.fdTable) :
    (p.tebakoClosedir dirp).2.2.Owned ∧
      (p.tebakoClosedir dirp).2.2.Untouched (p.tebakoClosedir dirp).2.1 := by
  rcases closed : p.closeStream dirp with ⟨ret, calls, after⟩
  obtain ⟨kept, untouched, _, listed, mine⟩ := closeStream_sound owned closed
  simp only [tebakoClosedir, closed]
  split
  · split
    · rename_i known
      rw [KfdTable.check_iff, listed] at known
      obtain rfl := mine.resolve_left fun there => owned.apart dirp there known
      have apart : ∀ other ∈ after.dsTable, other ∉ after.kfdTable.erase dirp := by
        intro other there erased
        exact kept.apart other there (KfdTable.mem_erase.mp erased).2
      cases reads : after.host.streams[dirp]? with
      | none =>
          simp only [HostFds.closedir, reads]
          exact ⟨⟨kept.held, apart⟩, untouched_append.mpr ⟨untouched, by simp⟩⟩
      | some fd =>
          have absent := permitted known fd reads
          simp only [HostFds.closedir, reads]
          refine ⟨⟨fun vfd file there => ?_, apart⟩, untouched_append.mpr ⟨untouched, ?_⟩⟩
          · obtain ⟨own, isDir, placed⟩ := kept.held vfd file there
            have different := ne_of_mem_of_not_mem (mem_of_getElem? there) absent
            exact ⟨own, isDir, getElem?_erase_iff.mpr ⟨different, placed⟩⟩
          · intro call issued number about
            obtain rfl := List.mem_singleton.mp issued
            obtain rfl : fd = number := Option.some.inj about
            exact absent
    · exact ⟨kept, untouched⟩
  · exact ⟨kept, untouched⟩

theorem readdir_mem {before : DsTable} {other : Nat}
    (there : other ∈ (before.readdir p.fdTable w.memfsTable dirp).2) : other ∈ before := by
  cases held : before[dirp]? with
  | none => simpa only [DsTable.readdir, held] using there
  | some ds =>
      simp only [DsTable.readdir, held] at there
      rcases mem_insert_iff.mp there with here | listed
      · rw [here]
        exact mem_of_getElem? held
      · exact listed

/-- Reading a stream opens none. -/
theorem scanEntries_mem {sel : TebakoDirent → Bool} {before table : DsTable} {list : List TebakoDirent}
    (scanned : p.scanEntries w sel dirp fuel before = some (list, table)) :
    ∀ other ∈ table, other ∈ before := by
  induction fuel generalizing before list with
  | zero => cases scanned
  | succ fuel ih =>
      intro other there
      refine @readdir_mem p w dirp before other ?_
      rcases read : before.readdir p.fdTable w.memfsTable dirp with ⟨⟨code, handed⟩, next⟩
      cases handed with
      | none =>
          simp only [scanEntries, read, Option.some.injEq, Prod.mk.injEq] at scanned
          exact scanned.2 ▸ there
      | some slot =>
          cases slot with
          | none =>
              simp only [scanEntries, read] at scanned
              exact ih scanned other there
          | some entry =>
              simp only [scanEntries, read] at scanned
              obtain ⟨⟨rest, last⟩, more, same⟩ := Option.map_eq_some_iff.mp scanned
              cases same
              exact ih more other there

theorem tebakoScandir_sound {wanted : Bool} {sel : TebakoDirent → Bool}
    {result : Traced (Option (List TebakoDirent))} (owned : p.Owned) (places : p.Places into)
    (spares : p.SparesDir w fuel dirname handle)
    (done : p.tebakoScandir w fuel dirname wanted sel handle into = some result) :
    result.2.2.Owned ∧ result.2.2.Untouched result.2.1 := by
  cases dirname with
  | none =>
      cases done
      exact ⟨owned, untouched_nil⟩
  | some name =>
      cases known : toTebakoPath w.cwd name with
      | none =>
          simp only [tebakoScandir, known, Option.some.injEq] at done
          subst done
          exact ⟨owned, untouched_nil⟩
      | some path =>
          simp only [tebakoScandir, known] at done
          obtain ⟨⟨⟨outside, vfd⟩, calls, after⟩, opened, rest⟩ := Option.bind_eq_some_iff.mp done
          obtain ⟨owned, untouched, _, listed⟩ := openDir_sound owned (spares name path rfl known) opened
          have unlisted : into.address ∉ after.kfdTable := listed ▸ places.2.2
          simp only at rest
          split at rest
          · cases rest
            exact ⟨owned, untouched⟩
          · rcases stream : after.openStream w vfd into with ⟨dirp, streaming⟩
            obtain ⟨kept, table⟩ := @Owned.openStream after vfd w into owned unlisted
            rw [stream] at kept table
            simp only [stream] at rest
            split at rest
            · cases rest
              exact ⟨kept, by rwa [Untouched, table]⟩
            · obtain ⟨⟨list, scanned⟩, read, same⟩ := Option.map_eq_some_iff.mp rest
              have reading : Owned { streaming with dsTable := scanned } :=
                ⟨kept.held, fun other there => kept.apart other (scanEntries_mem read other there)⟩
              rcases closed : Process.closeStream { streaming with dsTable := scanned } dirp with
                ⟨ret, more, last⟩
              simp only [closed] at same
              cases same
              obtain ⟨kept, also, fewer, _⟩ := closeStream_sound reading closed
              refine ⟨kept, untouched_append.mpr ⟨fun call listed fd about there => ?_, also⟩⟩
              exact untouched call listed fd about (table ▸ fewer fd there)

end Streams

theorem tebakoFstat_sound : p.Untouched (p.tebakoFstat vfd).calls := by
  refine untouched_passOn rfl fun there => ?_
  obtain ⟨fd, held⟩ := exists_of_mem there
  simp [FdTable.fstat, held, dwarfsIoContinue, dwarfsInvalidFd]

theorem fstatat_invalid {w : World} {fuel : Nat} {path : CString} {follow : Bool}
    (answered : p.fdTable.fstatat w fuel vfd path follow = some none) : vfd ∉ p.fdTable := by
  cases held : p.fdTable.fstat vfd with
  | none => exact fstat_none held
  | some stfd =>
      simp only [FdTable.fstatat, held] at answered
      split at answered
      · cases answered
      · split at answered
        · cases answered
        · obtain ⟨_, _, same⟩ := Option.map_eq_some_iff.mp answered
          cases same

theorem fstatatCalls_sound {w : World} {fuel : Nat} {path : CString} {flag : UInt32} :
    p.Untouched (p.fstatatCalls w fuel vfd path flag) := by
  unfold fstatatCalls
  split
  · exact untouched_nil
  · split
    · rename_i answered
      split
      · intro call listed number about
        obtain rfl := List.mem_singleton.mp listed
        simp only [HostCall.fd] at about
        split at about
        · cases about
        · cases about
          exact fstatat_invalid answered
      · exact untouched_nil
    · exact untouched_nil

/-! ## Runs -/

theorem step_sound {op : FileOp} (owned : p.Owned) (allocates : p.Allocates op)
    (permitted : p.Permits op) :
    (processStep op p).2.Owned ∧ (processStep op p).2.Untouched (processStep op p).1 := by
  cases op with
  | openFile w fuel path flags mode hosted handle =>
      cases done : Tebako.tebakoOpen w fuel path flags mode p.host.dupStdin.1 p.fdTable with
      | none =>
          simp only [processStep, tebakoOpen, done]
          exact ⟨owned, untouched_nil⟩
      | some result =>
          simp only [processStep, tebakoOpen, done]
          refine opened_sound owned (tebakoOpen_answered done) fun full => permitted ?_
          rw [done, Option.map_some, full]
  | openAt w fuel vfd path flags mode hosted handle =>
      cases done : Tebako.tebakoOpenat w fuel vfd path flags mode p.host.dupStdin.1 p.fdTable with
      | none =>
          simp only [processStep, tebakoOpenat, done]
          exact ⟨owned, untouched_nil⟩
      | some result =>
          simp only [processStep, tebakoOpenat, done]
          refine opened_sound owned (tebakoOpenat_answered done) fun full => permitted ?_
          rw [done, Option.map_some, full]
  | close vfd => exact tebakoClose_sound owned
  | read memfsTable vfd nbyte =>
      exact sound_passOn owned rfl FdTable.read_sameHandles fun _ => FdTable.read_ret
  | pread memfsTable vfd nbyte offset =>
      exact sound_passOn owned rfl FdTable.sameHandles_refl fun _ => FdTable.pread_ret
  | readv memfsTable vfd iov =>
      exact sound_passOn owned rfl FdTable.readv_sameHandles fun _ => FdTable.readv_ret
  | lseek vfd offset whence =>
      exact sound_passOn owned rfl FdTable.lseek_sameHandles fun fd held =>
        FdTable.lseek_ret held offset.le_toInt (permitted fd held)
  | fstat vfd => exact ⟨owned, tebakoFstat_sound⟩
  | fstatat w fuel vfd path flag => exact ⟨owned, fstatatCalls_sound⟩
  | flock vfd operation =>
      exact sound_passOn owned rfl FdTable.flock_sameHandles fun _ => FdTable.flock_ret
  | opendir w fuel dirname hosted handle into =>
      cases done : p.tebakoOpendir w fuel dirname hosted handle into with
      | none =>
          simp only [processStep, done]
          exact ⟨owned, untouched_nil⟩
      | some result =>
          simp only [processStep, done]
          exact tebakoOpendir_sound owned (allocates _ rfl) permitted done
  | fdopendir w vfd into => exact tebakoFdopendir_sound owned (allocates _ rfl) permitted
  | closedir dirp => exact tebakoClosedir_sound owned permitted
  | scandir w fuel dirname wanted sel handle into =>
      cases done : p.tebakoScandir w fuel dirname wanted sel handle into with
      | none =>
          simp only [processStep, done]
          exact ⟨owned, untouched_nil⟩
      | some result =>
          simp only [processStep, done]
          exact tebakoScandir_sound owned (allocates _ rfl) permitted done

end Process

/-- In every run of permitted calls, each number of the table is held by its
placeholder and by nothing else, and no call of the host is about it. -/
theorem memfs_numbers_owned (start p : Process) (noFds : start.fdTable = ∅) (noStreams : start.dsTable = ∅)
    (reached : Machine.Reaches processStep (fun p op => p.Allocates op ∧ p.Permits op) start p) :
    p.Owned ∧
      (∀ vfd ∈ p.fdTable, ∀ file, p.host.files[vfd]? = some file → file.holder = .placeholder) ∧
      ∀ op, p.Allocates op → p.Permits op → (processStep op p).2.Untouched (processStep op p).1 := by
  have owned : p.Owned := by
    refine reached.invariant ⟨?_, ?_⟩ fun _ _ owned allowed =>
      (Process.step_sound owned allowed.1 allowed.2).1
    · intro vfd fd there
      simp [noFds] at there
    · intro dirp there
      simp [noStreams] at there
  refine ⟨owned, fun vfd there file placed => ?_, fun op allocates permitted =>
    (Process.step_sound owned allocates permitted).2⟩
  obtain ⟨fd, held⟩ := exists_of_mem there
  obtain ⟨_, isDir, placeholder⟩ := owned.held vfd fd held
  rw [placed] at placeholder
  cases placeholder
  rfl

/-- One file in the root directory. -/
def oneFileImage : Dwarfs :=
  { Dwarfs.ofEntries [⟨0, cStr ['f'], 0o100644, .empty⟩] with
    opendir := fun view => if view.inodeNum = 0 then some ⟨0⟩ else none }

def oneFileWorld : World :=
  .ofRoot { makeMemfs {} [] 0 with fs := oneFileImage } ∅ fun _ => .error .ENOENT

/-- Stdin is all that is open. -/
def freshProcess : Process where
  fdTable := ∅
  dsTable := ∅
  kfdTable := ∅
  host := ⟨8, (∅ : Std.ExtTreeMap Int HostFd).insert 0 ⟨false, .application⟩, ∅⟩

def openOneFile : FileOp := .openFile oneFileWorld 9 (some (belowMountPoint ['f'])) 0 none none 7

def oneFileOpen : Process := (processStep openOneFile freshProcess).2

theorem openOneFile_permitted : freshProcess.Allocates openOneFile ∧ freshProcess.Permits openOneFile := by
  refine ⟨nofun, fun _ => ?_⟩
  simp [freshProcess]

theorem one_file_owned :
    oneFileOpen.Owned ∧
      (∀ vfd ∈ oneFileOpen.fdTable, ∀ file, oneFileOpen.host.files[vfd]? = some file →
        file.holder = .placeholder) ∧
      ∀ op, oneFileOpen.Allocates op → oneFileOpen.Permits op →
        (processStep op oneFileOpen).2.Untouched (processStep op oneFileOpen).1 :=
  memfs_numbers_owned freshProcess oneFileOpen rfl rfl (.step openOneFile .start openOneFile_permitted)

def streamOneFile : FileOp :=
  .fdopendir oneFileWorld 1 ⟨1, Vector.replicate tebakoDirCacheSize ⟨none, 0, none, .empty⟩⟩

/-- `fdopendir` on a file of the memfs is passed on to the host, with the number
of the placeholder. -/
theorem placeholder_passed_to_fdopendir : ¬ ∀ start p op, start.fdTable = ∅ → start.dsTable = ∅ →
    Machine.Reaches processStep Process.Allocates start p → p.Allocates op →
    p.Owned ∧ (processStep op p).2.Untouched (processStep op p).1 := by
  intro always
  have places : oneFileOpen.Allocates streamOneFile := by
    intro into same
    cases same
    exact ⟨by decide, by decide +kernel, by decide +kernel⟩
  obtain ⟨_, untouched⟩ := always freshProcess oneFileOpen streamOneFile rfl rfl
    (.step openOneFile .start openOneFile_permitted.1) places
  have issued : HostCall.fdopendir 1 ∈ (processStep streamOneFile oneFileOpen).1 := by decide +kernel
  have there : (1 : Int) ∈ (processStep streamOneFile oneFileOpen).2.fdTable := by decide +kernel
  exact untouched _ issued 1 rfl there

end Tebako
