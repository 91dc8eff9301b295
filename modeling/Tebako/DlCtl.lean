import Tebako.FdCalls
import Tebako.FileIo
import Tebako.MountRules

namespace Tebako

open Data Data.Loop Data.LexicalPath Data.OrderedMap

/-! Libraries of a memfs for the loader of the host.

The host can load a library from a file of its own only. A library of the memfs
is copied to a directory made for this, and a table keeps the names of the
copies. -/

/-- The files of the host, by the normal forms of their names. -/
abbrev Disk := Std.ExtTreeMap Str (List UInt8)

def CString.onDisk (path : CString) : Str := path.normal.chars

/-- What `write` does: it takes all the bytes or some of them, or it fails. -/
inductive WriteAnswer where
  | all
  | only (count : Nat)
  | failed
deriving DecidableEq

/-- The number that `write` returns, and the bytes that are in the file then. -/
def WriteAnswer.result (bytes : List UInt8) : WriteAnswer → Int × List UInt8
  | .all => (bytes.length, bytes)
  | .only count => ((bytes.take count).length, bytes.take count)
  | .failed => (-1, [])

/-- The host's part in a call; `dup` is what `::dup(0)` returns. -/
structure HostAnswers where
  makesDirectories : Bool
  dup : Int
  opensOutput : Bool
  write : Nat → WriteAnswer

structure HostAnswers.Succeed (host : HostAnswers) : Prop where
  makesDirectories : host.makesDirectories = true
  opensOutput : host.opensOutput = true
  write : ∀ chunk, host.write chunk = .all

/-- What stays the same while the process runs. -/
structure DlEnv where
  parsers : OptionParsers
  loader : Loader
  dlTmpdir : CString
  hostStat : Disk → CString → Except Errno FileStat

/-- `dltable` is `tebako_dltable`, and `dlerror` the error and the name in
`tebako_dlerror_stash`. -/
structure DlState where
  globals : Globals
  dltable : Std.ExtTreeMap Str CString
  dlerror : Option (Errno × CString)
  disk : Disk

def DlState.initial (disk : Disk) : DlState where
  globals := .initial
  dltable := ∅
  dlerror := none
  disk := disk

/-- `map_name`: the name of the copy, in the directory that it is given. -/
def mapName (dlTmpdir path : CString) : CString :=
  dlTmpdir.join (if path.chars.getD tebakoMountPointLength (Char.ofNat 0) = Char.ofNat 0 then
    path.drop tebakoMountPointLength
  else path.drop (tebakoMountPointLength + 1))

/-- `fh_in`: a descriptor of the table, or a file of the host with what it holds. -/
inductive DlInput where
  | memfs (vfd : Int)
  | host (contents : List UInt8)

def bsize : Nat := 16 * 1024

namespace DlInput

/-- `st_size`, where `tebako_fstat` succeeds. -/
def size (table : FdTable) : DlInput → Option Nat
  | .memfs vfd => (table.fstat vfd).map (·.size)
  | .host contents => some contents.length

/-- One `tebako_read`. It moves the position in the table, or that in the file
of the host. -/
def read (memfsTable : MemfsTable) : DlInput → FdTable × Nat → CallResult × (FdTable × Nat)
  | .memfs vfd, (table, pos) =>
      let (result, table) := table.read memfsTable vfd bsize
      (result, (table, pos))
  | .host contents, (table, pos) =>
      let chunk := (contents.drop pos).take bsize
      ({ ret := chunk.length, stored := chunk }, (table, pos + chunk.length))

def close (table : FdTable) : DlInput → FdTable
  | .memfs vfd => (table.close vfd).2
  | .host _ => table

end DlInput

/-- `left` is `f_size`, and `written` what has been written to the copy. -/
structure Copying (σ : Type u) where
  source : σ
  left : Nat
  written : List UInt8
  chunk : Nat

/-- A round of the loop of `map2file`. What is left is counted before it is
known how much has been written. -/
def copyBody {σ : Type u} (read : σ → CallResult × σ) (write : Nat → WriteAnswer) (c : Copying σ) :
    Step (Copying σ) (Copying σ) :=
  if c.left = 0 then .halt c
  else
    let (result, source) := read c.source
    if result.ret ≤ 0 then .halt { c with source := source }
    else
      let (count, bytes) := (write c.chunk).result (result.stored.take result.ret.toNat)
      let after : Copying σ := ⟨source, sizeT (c.left - result.ret), c.written ++ bytes, c.chunk + 1⟩
      if result.ret = count then .next after else .halt after

namespace DlState

variable (env : DlEnv) (s : DlState)

def world : World := s.globals.world (env.hostStat s.disk)

def fail (errno : Errno) (path : CString) : DlState := { s with dlerror := some (errno, path) }

def withFds (table : FdTable) : DlState := { s with globals := { s.globals with fdTable := table } }

/-- `tebako_open`; what it opens on the host is not in the table. -/
def openInput (fuel : Nat) (path : CString) (dup : Int) : Option (Option DlInput × FdTable) :=
  (tebakoOpen (s.world env) fuel (some path) 0 none dup s.globals.fdTable).map fun (outcome, table) =>
    (match outcome with
      | .returned vfd => if vfd < 0 then none else some (.memfs vfd)
      | .host call => s.disk[call.path.onDisk]?.map .host
      | .failed _ => none
      | .exhausted => none, table)

/-- After the loop. The copy was opened without `O_TRUNC`: behind what has been
written, a file that was there already still holds what it held. -/
def finish (mapped path : CString) (c : Copying (FdTable × Nat)) : CString × DlState :=
  let held := s.disk[mapped.onDisk]?.getD []
  if c.left = 0 then
    (mapped, { s with
      dltable := Std.ExtTreeMap.insert s.dltable path.chars mapped
      disk := Std.ExtTreeMap.insert s.disk mapped.onDisk (c.written ++ held.drop c.written.length) })
  else (.empty, { s.fail Errno.EIO path with disk := Std.ExtTreeMap.erase s.disk mapped.onDisk })

def extract (fuel : Nat) (host : HostAnswers) (mapped path : CString) (input : DlInput) (table : FdTable) :
    Option (CString × DlState) :=
  match input.size table with
  | none => some (.empty, (s.withFds (input.close table)).fail Errno.EIO path)
  | some size =>
      if host.opensOutput = false then
        some (.empty, (s.withFds (input.close table)).fail Errno.EIO path)
      else
        (run (copyBody (input.read s.globals.memfsTable) host.write) fuel ⟨(table, 0), size, [], 0⟩).map
          fun c => (s.withFds (input.close c.source.1)).finish mapped path c

/-- The name is empty where there is no copy. -/
def map2file (fuel : Nat) (host : HostAnswers) (path : CString) : Option (CString × DlState) :=
  match s.dltable[path.chars]? with
  | some name => some (name, s)
  | none =>
      if host.makesDirectories = false then some (.empty, s.fail .ENOMEM path)
      else
        match s.openInput env fuel path host.dup with
        | none => none
        | some (none, table) => some (.empty, (s.withFds table).fail .ENOENT path)
        | some (some input, table) => s.extract fuel host (mapName env.dlTmpdir path) path input table

end DlState

/-- What the calls answer; `dlopen` is the call of the host's own. -/
inductive DlAnswer where
  | mounted (ret : Int)
  | dlopen (path : Option CString)
  | mapped (name : CString)
  | null
deriving DecidableEq

namespace DlState

variable (env : DlEnv) (s : DlState)

def tebakoDlopen (fuel : Nat) (host : HostAnswers) (path : Option CString) : Option (DlAnswer × DlState) :=
  match path with
  | none => some (.dlopen none, s)
  | some path =>
      match toTebakoPath s.globals.cwd path with
      | none => some (.dlopen (some path), s)
      | some p => (s.map2file env fuel host p).map fun (name, after) =>
          (if name.chars = [] then .null else .dlopen (some name), after)

def tebakoDlmap2file (fuel : Nat) (host : HostAnswers) (path : Option CString) :
    Option (DlAnswer × DlState) :=
  match path with
  | none => some (.null, s)
  | some path =>
      match toTebakoPath s.globals.cwd path with
      | none => some (.null, s)
      | some p => (s.map2file env fuel host p).map fun (name, after) =>
          (if name.chars = [] then .null else .mapped name, after)

end DlState

inductive DlOp where
  | mounting (op : RootOp)
  | dlopen (fuel : Nat) (host : HostAnswers) (path : Option CString)
  | dlmap2file (fuel : Nat) (host : HostAnswers) (path : Option CString)

/-- A call that does not come to its end leaves the state alone. -/
def finished (s : DlState) : Option (DlAnswer × DlState) → Option DlAnswer × DlState
  | none => (none, s)
  | some (answer, after) => (some answer, after)

def dlStep (env : DlEnv) : Machine DlState DlOp (Option DlAnswer)
  | .mounting op, s =>
      let (ret, globals) := rootStep env.parsers env.loader op s.globals
      (some (.mounted ret), { s with globals := globals })
  | .dlopen fuel host path, s => finished s (s.tebakoDlopen env fuel host path)
  | .dlmap2file fuel host path, s => finished s (s.tebakoDlmap2file env fuel host path)

/-- What reading a file of an image gives, as far as it gives anything: the bytes
that the file has, from the offset on. It has no more of them than its size says. -/
structure Dwarfs.Serves (fs : Dwarfs) (contents : UInt32 → List UInt8) : Prop where
  read : ∀ {inode : UInt32} {size offset : Nat} {got : List UInt8}, fs.read inode size offset = .ok got →
    got = ((contents inode).drop offset).take size
  size : ∀ {view : InodeView} {attr : InodeAttr}, fs.getattr view = .ok attr →
    (contents view.inodeNum).length ≤ attr.size ∧ (attr.size : Int) ≤ offMax

/-- A file that a path can lead to, in an image or on the host. -/
inductive LibraryFile where
  | image (fs : Dwarfs) (inode : UInt32)
  | host (bytes : List UInt8)

namespace LibraryFile

def bytes (contents : Dwarfs → UInt32 → List UInt8) : LibraryFile → List UInt8
  | .image fs inode => contents fs inode
  | .host bytes => bytes

/-- Nothing goes wrong when it is read to the size that it should have. -/
def ReadsWhole (contents : Dwarfs → UInt32 → List UInt8) : LibraryFile → Prop
  | .image fs inode =>
      (∀ size offset, ∃ got, fs.read inode size offset = .ok got) ∧
        ∀ attr, fs.getattr ⟨inode⟩ = .ok attr → (contents fs inode).length = attr.size
  | .host _ => True

end LibraryFile

/-! ## The loop -/

section Copy

variable {σ : Type u} {read : σ → CallResult × σ} {write : Nat → WriteAnswer} {stands : σ → Nat → Prop}
variable {bytes : List UInt8} {size : Nat} {c after : Copying σ}

/-- What is read from a source that stands somewhere are the bytes from there
on, and it stands behind them then. -/
def Delivers (read : σ → CallResult × σ) (stands : σ → Nat → Prop) (bytes : List UInt8) : Prop :=
  ∀ source pos, stands source pos → pos ≤ bytes.length → 0 < (read source).1.ret →
    ∃ count : Nat, (read source).1.ret = count ∧ pos + count ≤ bytes.length ∧
      (read source).1.stored.take count = (bytes.drop pos).take count ∧ stands (read source).2 (pos + count)

/-- Where bytes are left, some are read. -/
def Readable (read : σ → CallResult × σ) (stands : σ → Nat → Prop) (bytes : List UInt8) : Prop :=
  ∀ source pos, stands source pos → pos < bytes.length → 0 < (read source).1.ret

/-- The copy is a beginning of the file, and the rest is left. -/
structure CopiedSoFar (stands : σ → Nat → Prop) (bytes : List UInt8) (size : Nat) (c : Copying σ) : Prop where
  stands : stands c.source c.written.length
  written : c.written = bytes.take c.written.length
  within : c.written.length ≤ bytes.length
  left : c.left + c.written.length = size

/-- A round with all bytes written either ends the loop or copies some more. -/
theorem copyBody_copied (delivers : Delivers read stands bytes) (all : ∀ chunk, write chunk = .all)
    (fits : bytes.length ≤ size) (short : size < 2 ^ 64) (so : CopiedSoFar stands bytes size c) :
    (∃ source, copyBody read write c = .halt { c with source := source } ∧
        (c.left ≠ 0 → (read c.source).1.ret ≤ 0)) ∨
      ∃ after, copyBody read write c = .next after ∧ CopiedSoFar stands bytes size after := by
  obtain ⟨here, written, within, left⟩ := so
  unfold copyBody
  split
  · rename_i done
    exact .inl ⟨c.source, rfl, fun more => absurd done more⟩
  · simp only
    split
    · rename_i none
      exact .inl ⟨_, rfl, fun _ => none⟩
    · rename_i some
      obtain ⟨count, ret, bounded, stored, next⟩ := delivers _ _ here within (Int.not_le.mp some)
      have length : ((read c.source).1.stored.take count).length = count := by
        rw [stored, List.length_take, List.length_drop]
        omega
      have rest : (sizeT (c.left - count) : Int) = c.left - count := sizeT_cast (by omega) (by omega)
      right
      simp only [all, ret, WriteAnswer.result, Int.toNat_natCast, length, ↓reduceIte]
      refine ⟨_, rfl, ?_, ?_, ?_, ?_⟩
      · simpa only [List.length_append, length] using next
      · rw [List.length_append, length, List.take_add, ← stored, ← written]
      · rw [List.length_append, length]
        exact bounded
      · simp only [List.length_append, length]
        omega

theorem copied_of_returns (delivers : Delivers read stands bytes) (all : ∀ chunk, write chunk = .all)
    (fits : bytes.length ≤ size) (short : size < 2 ^ 64) (so : CopiedSoFar stands bytes size c)
    (returned : Returns (copyBody read write) c after) :
    (after.left = 0 → after.written = bytes) ∧ (Readable read stands bytes → bytes.length = size → after.left = 0) := by
  induction returned using Returns.rec_on with
  | halt c stopped =>
      rcases copyBody_copied delivers all fits short so with ⟨source, halted, empty⟩ | ⟨next, moved, _⟩
      · cases halted.symm.trans stopped
        obtain ⟨here, written, within, left⟩ := so
        constructor
        · intro done
          simp only at done
          rw [written, List.take_of_length_le (by omega)]
        · intro readable whole
          by_contra more
          have some := readable _ _ here (by simp only at more; omega)
          exact absurd (empty more) (Int.not_le.mpr some)
      · cases moved.symm.trans stopped
  | next c following moved rest ih =>
      rcases copyBody_copied delivers all fits short so with ⟨source, halted, _⟩ | ⟨next, same, copied⟩
      · cases halted.symm.trans moved
      · obtain rfl : next = following := Step.next.inj (same.symm.trans moved)
        exact ih copied

end Copy

/-! ## What is read -/

section Sources

variable {memfsTable : MemfsTable} {memfs : Memfs} {pi : InodeView} {st : FileStat} {vfd : Int}
variable {contents : UInt32 → List UInt8} {pos : Nat}

theorem getattr_number (stat : memfs.getattr pi = .ok st) :
    st.ino.toUInt32 - memfs.dwarfsRootInode = pi.inodeNum := by
  rw [Memfs.getattr_ino stat, UInt32.toUInt32_toUInt64, Memfs.reported, UInt32.add_sub_cancel]

/-- One read from the image that the inode number leads to. -/
theorem inodeRead_served (serves : memfs.fs.Serves contents)
    (held : memfsTable[getFsIndex st.ino.toUInt32.toUInt64]? = some memfs)
    (stat : memfs.getattr pi = .ok st) (short : pos < 2 ^ 64) :
    (∃ errno, memfs.fs.read pi.inodeNum bsize pos = .error errno ∧
        dwarfsInodeRead memfsTable st.ino.toUInt32 bsize (offT pos) = .error errno) ∨
      dwarfsInodeRead memfsTable st.ino.toUInt32 bsize (offT pos) =
        { ret := (((contents pi.inodeNum).drop pos).take bsize).length
          stored := ((contents pi.inodeNum).drop pos).take bsize } := by
  simp only [dwarfsInodeRead, held, Memfs.inodeRead, getattr_number stat, sizeT_offT short]
  cases ran : memfs.fs.read pi.inodeNum bsize pos with
  | error errno => exact .inl ⟨errno, rfl, rfl⟩
  | ok got =>
      right
      rw [← serves.read ran]
      have length : got.length ≤ bsize := by
        rw [serves.read ran]
        exact List.length_take_le _ _
      have narrow : narrowInt got.length = got.length :=
        narrowInt_of_lt (Int.natCast_nonneg _) (by unfold bsize at length; omega)
      simp only [narrow]
      exact if_neg (by omega)

theorem chunk_length (bytes : List UInt8) (pos : Nat) :
    ((bytes.drop pos).take bsize).length ≤ bytes.length - pos ∧
      (pos < bytes.length → 0 < ((bytes.drop pos).take bsize).length) := by
  rw [List.length_take, List.length_drop, bsize]
  omega

theorem take_chunk_length (bytes : List UInt8) (count : Nat) :
    (bytes.take count).take (bytes.take count).length = bytes.take (bytes.take count).length := by
  rw [List.take_length]
  exact List.prefix_iff_eq_take.mp (List.take_prefix count bytes)

/-- A descriptor of the file is open at this position. -/
def OpenAt (vfd : Int) (st : FileStat) (source : FdTable × Nat) (pos : Nat) : Prop :=
  ∃ fd, source.1[vfd]? = some fd ∧ fd.st = st ∧ fd.pos = pos

theorem memfs_delivers (serves : memfs.fs.Serves contents)
    (held : memfsTable[getFsIndex st.ino.toUInt32.toUInt64]? = some memfs)
    (stat : memfs.getattr pi = .ok st) (short : (contents pi.inodeNum).length < 2 ^ 64) :
    Delivers ((DlInput.memfs vfd).read memfsTable) (OpenAt vfd st) (contents pi.inodeNum) := by
  intro source pos opened within some
  obtain ⟨table, other⟩ := source
  obtain ⟨fd, there, rfl, rfl⟩ := opened
  simp only [DlInput.read, FdTable.read, there] at some ⊢
  rcases inodeRead_served serves held stat (Nat.lt_of_le_of_lt within short) with
    ⟨errno, _, failed⟩ | served
  · rw [failed] at some
    exact absurd some (show ¬ (0 : Int) < -1 by decide)
  · have length := (chunk_length (contents pi.inodeNum) fd.pos).1
    have whole := take_chunk_length ((contents pi.inodeNum).drop fd.pos) bsize
    generalize ((contents pi.inodeNum).drop fd.pos).take bsize = got at served length whole
    rw [served] at some ⊢
    split at some
    · rename_i more
      rw [if_pos more]
      refine ⟨got.length, rfl, by omega, whole, ?_⟩
      have position : sizeT (fd.pos + got.length) = fd.pos + got.length := by
        have cast := @sizeT_cast (fd.pos + got.length) (by omega) (by omega)
        omega
      exact ⟨_, Std.ExtTreeMap.getElem?_insert_self, rfl, position⟩
    · contradiction

theorem memfs_readable (serves : memfs.fs.Serves contents)
    (held : memfsTable[getFsIndex st.ino.toUInt32.toUInt64]? = some memfs)
    (stat : memfs.getattr pi = .ok st) (short : (contents pi.inodeNum).length < 2 ^ 64)
    (reads : ∀ size offset, ∃ got, memfs.fs.read pi.inodeNum size offset = .ok got) :
    Readable ((DlInput.memfs vfd).read memfsTable) (OpenAt vfd st) (contents pi.inodeNum) := by
  intro source pos opened more
  obtain ⟨table, other⟩ := source
  obtain ⟨fd, there, rfl, rfl⟩ := opened
  simp only [DlInput.read, FdTable.read, there]
  rcases inodeRead_served serves held stat (Nat.lt_trans more short) with ⟨errno, failed, _⟩ | served
  · obtain ⟨got, ran⟩ := reads bsize fd.pos
    cases failed.symm.trans ran
  · rw [served]
    split
    · assumption
    · exact Int.natCast_pos.mpr ((chunk_length (contents pi.inodeNum) fd.pos).2 more)

/-- The position in a file of the host. -/
def HostAt (source : FdTable × Nat) (pos : Nat) : Prop := source.2 = pos

theorem host_delivers (bytes : List UInt8) :
    Delivers ((DlInput.host bytes).read memfsTable) HostAt bytes := by
  intro source _ same within _
  obtain ⟨table, pos⟩ := source
  subst same
  have length := (chunk_length bytes pos).1
  exact ⟨_, rfl, by simp only at within ⊢; omega, take_chunk_length (bytes.drop pos) bsize, rfl⟩

theorem host_readable (bytes : List UInt8) :
    Readable ((DlInput.host bytes).read memfsTable) HostAt bytes := by
  intro source _ same more
  obtain ⟨table, pos⟩ := source
  subst same
  exact Int.natCast_pos.mpr ((chunk_length bytes pos).2 more)

end Sources

/-! ## What `map2file` comes to -/

/-- What becomes of a path that is not in the table. -/
inductive Maps (env : DlEnv) (host : HostAnswers) (s : DlState) (path : CString) : CString → DlState → Prop where
  | refused (table : FdTable) (errno : Errno) : Maps env host s path .empty ((s.withFds table).fail errno path)
  | copied {fuel size : Nat} {input : DlInput} {table : FdTable} {c : Copying (FdTable × Nat)}
      (opened : s.openInput env fuel path host.dup = some (some input, table))
      (sized : input.size table = some size)
      (ran : Returns (copyBody (input.read s.globals.memfsTable) host.write) ⟨(table, 0), size, [], 0⟩ c) :
      Maps env host s path
        ((s.withFds (input.close c.source.1)).finish (mapName env.dlTmpdir path) path c).1
        ((s.withFds (input.close c.source.1)).finish (mapName env.dlTmpdir path) path c).2

section Mapping

variable {env : DlEnv} {host : HostAnswers} {s after : DlState} {path p name : CString} {fuel : Nat}
variable {input : DlInput} {table : FdTable}

theorem map2file_of_cached (cached : s.dltable[path.chars]? = some name) :
    s.map2file env fuel host path = some (name, s) := by
  simp only [DlState.map2file, cached]

theorem maps_of_map2file (uncached : s.dltable[path.chars]? = none)
    (done : s.map2file env fuel host path = some (name, after)) : Maps env host s path name after := by
  simp only [DlState.map2file, uncached] at done
  split at done
  · cases done
    exact .refused s.globals.fdTable .ENOMEM
  · split at done
    · cases done
    · cases done
      exact .refused _ .ENOENT
    · rename_i input table opened
      simp only [DlState.extract] at done
      split at done
      · cases done
        exact .refused _ Errno.EIO
      · rename_i size sized
        split at done
        · cases done
          exact .refused _ Errno.EIO
        · obtain ⟨c, ran, same⟩ := Option.map_eq_some_iff.mp done
          obtain rfl := congrArg Prod.fst same
          obtain rfl := congrArg Prod.snd same
          exact .copied opened sized ⟨fuel, ran⟩

/-- A path of the memfs is opened where its lookup leads, which may be a file of
the host. -/
theorem openInput_cases {dup : Int} (known : toTebakoPath s.globals.cwd path = some p)
    (opened : s.openInput env fuel path dup = some (some input, table)) :
    (∃ vfd st, input = .memfs vfd ∧ dwarfsStat (s.world env) fuel p true = some (.ok (.inode st)) ∧
        table = Std.ExtTreeMap.insert s.globals.fdTable vfd ⟨st, 0, 0, vfd⟩) ∨
      ∃ lnk st bytes, input = .host bytes ∧
        dwarfsStat (s.world env) fuel p true = some (.ok (.linkOutside lnk st)) ∧
        s.disk[lnk.onDisk]? = some bytes := by
  have follow : decide ((0 : UInt32) &&& oNofollow = 0) = true := by decide
  have here : toTebakoPath (s.world env).cwd path = some p := known
  obtain ⟨⟨outcome, after⟩, ran, same⟩ := Option.map_eq_some_iff.mp opened
  simp only [tebakoOpen, here, FdTable.open, follow, Option.map_map] at ran
  obtain ⟨found, stat, entered⟩ := Option.map_eq_some_iff.mp ran
  cases answered : s.globals.fdTable.openFound found 0 dup with
  | mk answer entries =>
      simp only [Function.comp_apply, answered, Prod.mk.injEq] at entered
      obtain ⟨rfl, rfl⟩ := entered
      cases answer with
      | opened vfd =>
          obtain ⟨_, _, st, rfl, inserted⟩ := openFound_opened answered
          simp only [openAnswered, Prod.mk.injEq] at same
          obtain ⟨number, rfl⟩ := same
          split at number
          · cases number
          · cases number
            exact .inl ⟨vfd, st, rfl, stat, inserted⟩
      | linkOutside lnk =>
          obtain ⟨st, rfl⟩ := openFound_outside (congrArg Prod.fst answered)
          simp only [openAnswered, Prod.mk.injEq] at same
          obtain ⟨bytes, there, rfl⟩ := Option.map_eq_some_iff.mp same.1
          exact .inr ⟨lnk, st, bytes, rfl, stat, there⟩
      | failed errno =>
          simp only [openAnswered, Prod.mk.injEq] at same
          cases same.1
      | exhausted =>
          simp only [openAnswered, Prod.mk.injEq] at same
          cases same.1
      | invalidFd => exact absurd (congrArg Prod.fst answered) openFound_valid

end Mapping

end Tebako
