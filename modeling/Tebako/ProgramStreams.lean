import Tebako.Data.Watched
import Tebako.DirMemory
import Tebako.NamespaceListings

namespace Tebako

open Data Data.OrderedMap

/-! The directory streams of a program that runs.

The calls on a stream find out by its address whether it is one of the memfs, one
of the host or none. Whatever else the program does, a stream is read as if it
was alone. -/

/-- What a call on a stream comes to. A pointer that is no null pointer is given
with the entry that it points to. -/
inductive StreamReply where
  | entry (handed : Option TebakoDs.Handed)
  | number (value : Int)
  | done
  | host
  | badDescriptor

inductive DirCall where
  | readdir (memfsTable : MemfsTable)
  | telldir
  | seekdir (loc : Int64)
  | dirfd
  | closedir

def DsTable.dirfd (table : DsTable) (dirp : Nat) : Int :=
  match table[dirp]? with
  | none => dwarfsInvalidFd
  | some ds => ds.vfd

namespace Process

variable (p : Process)

/-- What all the calls do with a stream that the memfs does not have. -/
def passStream (dirp : Nat) : StreamReply :=
  if p.kfdTable.check dirp then .host else .badDescriptor

def tebakoReaddir (memfsTable : MemfsTable) (dirp : Nat) : StreamReply × Process :=
  let ((ret, entry), table) := p.dsTable.readdir p.fdTable memfsTable dirp
  (if ret = dwarfsInvalidFd then p.passStream dirp else .entry entry, { p with dsTable := table })

def tebakoTelldir (dirp : Nat) : StreamReply :=
  let ret := p.dsTable.telldir dirp
  if ret = dwarfsInvalidFd then p.passStream dirp else .number ret

def tebakoSeekdir (dirp : Nat) (loc : Int) : StreamReply × Process :=
  let (ret, table) := p.dsTable.seekdir dirp loc
  (if ret = dwarfsInvalidFd then p.passStream dirp else .done, { p with dsTable := table })

def tebakoDirfd (dirp : Nat) : StreamReply :=
  let ret := p.dsTable.dirfd dirp
  if ret = dwarfsInvalidFd then p.passStream dirp else .number ret

def streamCall (dirp : Nat) : DirCall → StreamReply × Process
  | .readdir memfsTable => p.tebakoReaddir memfsTable dirp
  | .telldir => (p.tebakoTelldir dirp, p)
  | .seekdir loc => p.tebakoSeekdir dirp loc.toInt
  | .dirfd => (p.tebakoDirfd dirp, p)
  | .closedir =>
      let (ret, _, after) := p.tebakoClosedir dirp
      (if ret = dwarfsIoError then .badDescriptor else .number ret, after)

end Process

/-- The calls of a program on files, and on streams that it has opened. -/
inductive ProgramOp where
  | file (op : FileOp)
  | stream (dirp : Nat) (call : DirCall)

inductive ProgramAnswer where
  | calls (calls : List HostCall)
  | reply (reply : StreamReply)

def programStep : Machine Process ProgramOp ProgramAnswer
  | .file op, p => (.calls (processStep op p).1, (processStep op p).2)
  | .stream dirp call, p => (.reply (p.streamCall dirp call).1, (p.streamCall dirp call).2)

/-- A stream as the program knows it. -/
inductive SeenStream where
  | memfs (position : Int)
  | host
  | closed

/-- Reading a stream that nobody else is concerned with. -/
def seenStep (listing : DirListing) (vfd : Int) : Machine SeenStream DirCall StreamReply
  | .closedir, .closed => (.badDescriptor, .closed)
  | .closedir, _ => (.number 0, .closed)
  | _, .closed => (.badDescriptor, .closed)
  | _, .host => (.host, .host)
  | .readdir _, .memfs position =>
      if position < listing.entries.length then
        (.entry (some (listing.dirent position.toNat)), .memfs (position + 1))
      else (.entry none, .memfs position)
  | .telldir, .memfs position => (.number position, .memfs position)
  | .seekdir loc, .memfs _ => (.done, .memfs loc.toInt)
  | .dirfd, .memfs position => (.number vfd, .memfs position)

/-! ## Descriptors of streams -/

namespace Process

/-- No stream reads from the descriptor. -/
def Unread (p : Process) (vfd : Int) : Prop :=
  ∀ (dirp : Nat) (ds : TebakoDs), p.dsTable[dirp]? = some ds → ds.vfd ≠ vfd

/-- Each stream reads from a descriptor of its own. -/
structure StreamsOwn (p : Process) : Prop where
  opened : ∀ {dirp : Nat} {ds : TebakoDs}, p.dsTable[dirp]? = some ds → ds.vfd ∈ p.fdTable
  single : ∀ {dirp other : Nat} {ds twin : TebakoDs}, p.dsTable[dirp]? = some ds → p.dsTable[other]? = some twin →
    ds.vfd = twin.vfd → dirp = other

/-- What a call leaves of the stream at the address: all that its reads depend on. -/
structure Leaves (dirp : Nat) (p after : Process) : Prop where
  stream : after.dsTable[dirp]? = p.dsTable[dirp]?
  known : dirp ∈ after.kfdTable ↔ dirp ∈ p.kfdTable
  file : ∀ {ds : TebakoDs}, p.dsTable[dirp]? = some ds →
    after.fdTable[ds.vfd]?.map (·.st) = p.fdTable[ds.vfd]?.map (·.st)

/-- Streams keep a descriptor of their own, and all but one are left alone. -/
structure Moves (except : Option Nat) (p after : Process) : Prop where
  own : p.StreamsOwn → after.StreamsOwn
  leaves : p.StreamsOwn → ∀ dirp, except ≠ some dirp → Leaves dirp p after

variable {p after last : Process} {except : Option Nat} {vfd handle ret : Int} {dirp : Nat} {table : FdTable}
variable {calls : List HostCall}

theorem Leaves.refl : Leaves dirp p p := ⟨rfl, .rfl, fun _ => rfl⟩

theorem Leaves.trans (first : Leaves dirp p after) (second : Leaves dirp after last) : Leaves dirp p last where
  stream := second.stream.trans first.stream
  known := second.known.trans first.known
  file held := (second.file (first.stream.trans held)).trans (first.file held)

theorem Moves.refl : Moves except p p := ⟨id, fun _ _ _ => .refl⟩

theorem Moves.trans (first : Moves except p after) (second : Moves except after last) : Moves except p last where
  own own := second.own (first.own own)
  leaves own dirp other := (first.leaves own dirp other).trans (second.leaves (first.own own) dirp other)

theorem mem_of_sameFile (same : table[vfd]?.map (·.st) = p.fdTable[vfd]?.map (·.st)) :
    vfd ∈ table ↔ vfd ∈ p.fdTable := by
  rw [Std.ExtTreeMap.mem_iff_isSome_getElem?, Std.ExtTreeMap.mem_iff_isSome_getElem?, ← Option.isSome_map, same,
    Option.isSome_map]

/-- Positions and locks aside, the tables are the same. -/
theorem moves_of_sameFiles (streams : after.dsTable = p.dsTable) (known : after.kfdTable = p.kfdTable)
    (files : ∀ vfd : Int, after.fdTable[vfd]?.map (·.st) = p.fdTable[vfd]?.map (·.st)) : Moves except p after where
  own own := by
    constructor
    · intro dirp ds held
      exact (mem_of_sameFile (files ds.vfd)).mpr (own.opened (streams ▸ held))
    · rw [streams]
      exact own.single
  leaves _ dirp _ := ⟨by rw [streams], by rw [known], fun _ => files _⟩

theorem moves_enter {fd : TebakoFd} (fresh : vfd ∉ p.fdTable) (streams : after.dsTable = p.dsTable)
    (known : after.kfdTable = p.kfdTable) (entered : after.fdTable = Std.ExtTreeMap.insert p.fdTable vfd fd) :
    Moves except p after where
  own own := by
    constructor
    · intro dirp ds held
      rw [entered]
      exact mem_insert_iff.mpr (.inr (own.opened (streams ▸ held)))
    · rw [streams]
      exact own.single
  leaves own dirp _ := by
    refine ⟨by rw [streams], by rw [known], fun {ds} held => ?_⟩
    rw [entered, getElem?_insert_ne (ne_of_mem_of_not_mem (own.opened held) fresh)]

theorem moves_erase (unread : p.Unread vfd) (streams : after.dsTable = p.dsTable)
    (known : after.kfdTable = p.kfdTable) (erased : after.fdTable = Std.ExtTreeMap.erase p.fdTable vfd) :
    Moves except p after where
  own own := by
    constructor
    · intro dirp ds held
      rw [streams] at held
      rw [erased]
      exact mem_erase_iff.mpr ⟨unread dirp ds held, own.opened held⟩
    · rw [streams]
      exact own.single
  leaves own dirp _ := by
    refine ⟨by rw [streams], by rw [known], fun {ds} held => ?_⟩
    rw [erased, getElem?_erase_ne (unread dirp ds held)]

/-- A stream at a new address reads from a descriptor that no other one reads from. -/
theorem moves_open {ds : TebakoDs} (there : ds.vfd ∈ p.fdTable) (unread : p.Unread ds.vfd)
    (streams : after.dsTable = Std.ExtTreeMap.insert p.dsTable dirp ds) (known : after.kfdTable = p.kfdTable)
    (files : after.fdTable = p.fdTable) : Moves (some dirp) p after where
  own own := by
    constructor
    · intro other twin held
      rw [files]
      rw [streams] at held
      rcases getElem?_insert_iff.mp held with ⟨_, rfl⟩ | ⟨_, before⟩
      · exact there
      · exact own.opened before
    · intro first second left right heldFirst heldSecond same
      rw [streams] at heldFirst heldSecond
      rcases getElem?_insert_iff.mp heldFirst with ⟨rfl, rfl⟩ | ⟨_, before⟩
      · rcases getElem?_insert_iff.mp heldSecond with ⟨rfl, _⟩ | ⟨_, other⟩
        · rfl
        · exact absurd same.symm (unread second right other)
      · rcases getElem?_insert_iff.mp heldSecond with ⟨_, rfl⟩ | ⟨_, other⟩
        · exact absurd same (unread first left before)
        · exact own.single before other same
  leaves _ other different := by
    have apart : other ≠ dirp := fun same => different (same ▸ rfl)
    exact ⟨by rw [streams, getElem?_insert_ne apart], by rw [known], fun _ => by rw [files]⟩

/-- A stream is read, or moved to another place. -/
theorem moves_update {ds twin : TebakoDs} (held : p.dsTable[dirp]? = some ds) (same : twin.vfd = ds.vfd)
    (streams : after.dsTable = Std.ExtTreeMap.insert p.dsTable dirp twin) (known : after.kfdTable = p.kfdTable)
    (files : after.fdTable = p.fdTable) : Moves (some dirp) p after where
  own own := by
    have before : ∀ {other : Nat} {stream : TebakoDs}, after.dsTable[other]? = some stream →
        ∃ old, p.dsTable[other]? = some old ∧ old.vfd = stream.vfd := by
      intro other stream found
      rw [streams] at found
      rcases getElem?_insert_iff.mp found with ⟨rfl, rfl⟩ | ⟨_, old⟩
      · exact ⟨ds, held, same.symm⟩
      · exact ⟨stream, old, rfl⟩
    constructor
    · intro other stream found
      obtain ⟨old, there, alike⟩ := before found
      rw [files, ← alike]
      exact own.opened there
    · intro first second left right heldFirst heldSecond equal
      obtain ⟨oldLeft, thereLeft, alikeLeft⟩ := before heldFirst
      obtain ⟨oldRight, thereRight, alikeRight⟩ := before heldSecond
      exact own.single thereLeft thereRight (alikeLeft.trans (equal.trans alikeRight.symm))
  leaves _ other different := by
    have apart : other ≠ dirp := fun same => different (same ▸ rfl)
    exact ⟨by rw [streams, getElem?_insert_ne apart], by rw [known], fun _ => by rw [files]⟩

/-- A stream is closed, and its descriptor with it. -/
theorem moves_close {ds : TebakoDs} (held : p.dsTable[dirp]? = some ds)
    (streams : after.dsTable = Std.ExtTreeMap.erase p.dsTable dirp) (known : after.kfdTable = p.kfdTable)
    (files : after.fdTable = Std.ExtTreeMap.erase p.fdTable ds.vfd) : Moves (some dirp) p after where
  own own := by
    constructor
    · intro other stream found
      rw [streams] at found
      obtain ⟨different, before⟩ := getElem?_erase_iff.mp found
      rw [files]
      exact mem_erase_iff.mpr ⟨fun same => different (own.single before held same), own.opened before⟩
    · intro first second left right heldFirst heldSecond equal
      rw [streams] at heldFirst heldSecond
      exact own.single (getElem?_erase_iff.mp heldFirst).2 (getElem?_erase_iff.mp heldSecond).2 equal
  leaves own other different := by
    have apart : other ≠ dirp := fun same => different (same ▸ rfl)
    refine ⟨by rw [streams, getElem?_erase_ne apart], by rw [known], fun {stream} found => ?_⟩
    rw [files, getElem?_erase_ne fun same => apart (own.single found held same)]

theorem moves_known (streams : after.dsTable = p.dsTable) (files : after.fdTable = p.fdTable)
    (known : ∀ other, other ≠ dirp → (other ∈ after.kfdTable ↔ other ∈ p.kfdTable)) :
    Moves (some dirp) p after where
  own own := by
    constructor
    · intro other stream found
      rw [files]
      exact own.opened (streams ▸ found)
    · rw [streams]
      exact own.single
  leaves _ other different :=
    ⟨by rw [streams], known other fun same => different (same ▸ rfl), fun _ => by rw [files]⟩

/-! ## The calls on files -/

section Files

variable {memfsTable : MemfsTable} {fd other : TebakoFd} {offset whence : Int}

theorem sameFile_insert {before : FdTable} (held : before[vfd]? = some fd) (same : other.st = fd.st) (number : Int) :
    (Std.ExtTreeMap.insert before vfd other)[number]?.map (·.st) = before[number]?.map (·.st) := by
  by_cases here : number = vfd
  · rw [here, held, Std.ExtTreeMap.getElem?_insert_self, Option.map_some, Option.map_some, same]
  · rw [getElem?_insert_ne here]

theorem read_sameFile {nbyte : Nat} (number : Int) :
    (table.read memfsTable vfd nbyte).2[number]?.map (·.st) = table[number]?.map (·.st) := by
  cases held : table[vfd]? with
  | none => simp only [FdTable.read, held]
  | some fd =>
      simp only [FdTable.read, held]
      split
      · exact sameFile_insert held (by rfl) number
      · rfl

theorem readv_sameFile {iov : Option (List Nat)} (number : Int) :
    (table.readv memfsTable vfd iov).2[number]?.map (·.st) = table[number]?.map (·.st) := by
  cases iov with
  | none => rfl
  | some lens =>
      cases held : table[vfd]? with
      | none => simp only [FdTable.readv, held]
      | some fd =>
          simp only [FdTable.readv, held]
          exact sameFile_insert held (by rfl) number

theorem flock_sameFile {operation : BitVec 32} (number : Int) :
    (table.flock vfd operation).2[number]?.map (·.st) = table[number]?.map (·.st) := by
  cases held : table[vfd]? with
  | none => simp only [FdTable.flock, held]
  | some fd =>
      simp only [FdTable.flock, held]
      exact sameFile_insert held (by rfl) number

theorem moveBy_st {base : Nat} {below : Prop} [Decidable below] :
    (FdTable.moveBy fd base offset below).2.st = fd.st := by
  unfold FdTable.moveBy
  split
  · rfl
  · split <;> rfl

theorem seek_st : (FdTable.seek fd offset whence).2.st = fd.st := by
  unfold FdTable.seek
  split
  · split <;> rfl
  · split
    · exact moveBy_st
    · split
      · exact moveBy_st
      · rfl

theorem lseek_sameFile (number : Int) :
    (table.lseek vfd offset whence).2[number]?.map (·.st) = table[number]?.map (·.st) := by
  cases held : table[vfd]? with
  | none => simp only [FdTable.lseek, held]
  | some fd =>
      simp only [FdTable.lseek, held]
      exact sameFile_insert held seek_st number

theorem closeFd_moves (unread : p.Unread vfd) (closed : p.closeFd vfd = (ret, calls, after)) : Moves except p after := by
  rcases @closeFd_cases p vfd with ⟨_, result⟩ | ⟨fd, _, result⟩
  · cases closed.symm.trans result
    exact .refl
  · cases closed.symm.trans result
    exact moves_erase unread rfl rfl rfl

theorem tebakoClose_moves (unread : p.Unread vfd) : Moves except p (p.tebakoClose vfd).2.2 := by
  rcases closed : p.closeFd vfd with ⟨ret, calls, after⟩
  have moves : Moves except p after := closeFd_moves unread closed
  simp only [tebakoClose, closed]
  split
  · exact moves.trans (moves_of_sameFiles rfl rfl fun _ => rfl)
  · exact moves

theorem abandon_moves : Moves except p (p.abandon handle).2.2 :=
  moves_of_sameFiles rfl rfl fun _ => rfl

theorem enter_moves (owned : p.Owned) (enters : p.Enters vfd table) :
    vfd ∉ p.fdTable ∧ Moves except p { p with fdTable := table, host := p.host.dupStdin.2 } := by
  obtain ⟨rfl, valid, st, rfl⟩ := enters
  have fresh : p.host.dupStdin.1 ∉ p.fdTable := by
    rcases p.host.dupStdin_cases with failed | ⟨fd, isDir, _, unused, taken⟩
    · rw [failed] at valid
      exact absurd rfl valid
    · rw [taken]
      exact fun there => unused (owned.mem_files there)
  exact ⟨fresh, moves_enter fresh rfl rfl rfl⟩

theorem opened_moves {hosted : Option Bool} {outcome : OpenOutcome} (owned : p.Owned)
    (answered : Answered p.fdTable p.host.dupStdin.1 outcome table) :
    Moves except p (p.opened hosted handle (outcome, table)).2.2 := by
  cases outcome with
  | returned vfd =>
      have enters := answered.returned vfd rfl
      simp only [opened, (enter_sound owned enters).1]
      exact (enter_moves owned enters).2
  | failed errno => exact .refl
  | exhausted => exact abandon_moves
  | host call =>
      cases hosted with
      | none => exact .refl
      | some isDir => exact moves_of_sameFiles rfl rfl fun _ => rfl

end Files

/-! ## The calls that open and close streams -/

section Streams

variable {w : World} {fuel : Nat} {path : CString} {into : StreamMemory} {dirname outside : Option CString}
variable {memfsTable : MemfsTable}

theorem openDir_moves (owned : p.Owned) (own : p.StreamsOwn)
    (done : p.openDir w fuel path handle = some ((outside, vfd), calls, after)) :
    Moves except p after ∧ (0 ≤ vfd → vfd ∈ after.fdTable ∧ after.Unread vfd) := by
  obtain ⟨⟨answer, table⟩, opened, same⟩ := Option.map_eq_some_iff.mp done
  cases answer with
  | opened number =>
      obtain ⟨found, _, entered⟩ := Option.map_eq_some_iff.mp opened
      have enters := (answered_opened entered).returned number rfl
      obtain ⟨fresh, moves⟩ := @enter_moves p except number table owned enters
      simp only [(enter_sound owned enters).1] at same
      cases same
      refine ⟨moves, fun _ => ⟨?_, fun dirp ds held equal => ?_⟩⟩
      · obtain ⟨_, _, st, inserted⟩ := enters
        rw [inserted]
        exact mem_insert_iff.mpr (.inl rfl)
      · exact fresh (equal ▸ own.opened held)
  | linkOutside lnk =>
      cases same
      exact ⟨.refl, fun there => absurd there (by decide)⟩
  | failed errno =>
      cases same
      exact ⟨.refl, fun there => absurd there (by decide)⟩
  | exhausted =>
      cases same
      exact ⟨abandon_moves, fun there => absurd there (by decide)⟩
  | invalidFd =>
      cases same
      exact ⟨.refl, fun there => absurd there (by decide)⟩

theorem openStream_reads :
    p.openStream w vfd into = (0, p) ∨ ∃ ds, ds.vfd = vfd ∧ vfd ∈ p.fdTable ∧ p.openStream w vfd into =
      (into.address, { p with dsTable := Std.ExtTreeMap.insert p.dsTable into.address ds }) := by
  simp only [openStream, DsTable.opendir]
  cases held : p.fdTable[vfd]? with
  | none =>
      left
      simp [TebakoDs.loadCache, FdTable.readdir, TebakoDs.make, held, dwarfsInvalidFd, dwarfsIoContinue]
  | some fd =>
      split
      · exact .inr ⟨_, loadCache_vfd, mem_of_getElem? held, rfl⟩
      · exact .inl rfl

theorem openStream_moves (unread : p.Unread vfd) : Moves (some into.address) p (p.openStream w vfd into).2 := by
  rcases @openStream_reads p vfd w into with same | ⟨ds, rfl, there, same⟩
  · rw [same]
    exact .refl
  · rw [same]
    exact moves_open there unread rfl rfl rfl

theorem hostStream_moves {opened : Bool × HostFds} : Moves (some dirp) p (p.hostStream opened dirp).2 := by
  unfold hostStream
  split
  · refine moves_known rfl rfl fun other different => ?_
    simp [different]
  · exact .refl

theorem openHostDir_moves {hosted : Bool} : Moves (some into.address) p (p.openHostDir hosted into).2 := by
  unfold openHostDir
  split
  · exact hostStream_moves
  · exact .refl

theorem tebakoOpendir_moves {hosted : Bool} {result : Traced Nat} (owned : p.Owned) (own : p.StreamsOwn)
    (done : p.tebakoOpendir w fuel dirname hosted handle into = some result) :
    Moves (some into.address) p result.2.2 := by
  cases dirname with
  | none =>
      cases done
      exact .refl
  | some name =>
      cases known : toTebakoPath w.cwd name with
      | none =>
          simp only [tebakoOpendir, known, Option.some.injEq] at done
          subst done
          exact openHostDir_moves
      | some path =>
          simp only [tebakoOpendir, known] at done
          obtain ⟨⟨⟨outside, vfd⟩, calls, after⟩, opened, same⟩ := Option.map_eq_some_iff.mp done
          obtain ⟨moves, reads⟩ := @openDir_moves _ _ (some into.address) _ _ _ _ _ _ _ owned own opened
          cases outside with
          | some lnk =>
              simp only [Option.isSome_some, ↓reduceIte] at same
              subst same
              exact moves.trans openHostDir_moves
          | none =>
              simp only [Option.isSome_none, Bool.false_eq_true, ↓reduceIte] at same
              split at same
              · subst same
                exact moves
              · rename_i valid
                subst same
                exact moves.trans (openStream_moves (reads (by omega)).2)

theorem tebakoFdopendir_moves (unread : p.Unread vfd) :
    Moves (some into.address) p (p.tebakoFdopendir w vfd into).2.2 := by
  have moves := @openStream_moves p vfd w into unread
  simp only [tebakoFdopendir]
  split
  · exact moves
  · exact moves.trans hostStream_moves

theorem closeStream_moves (closed : p.closeStream dirp = (ret, calls, after)) : Moves (some dirp) p after := by
  cases held : p.dsTable[dirp]? with
  | none =>
      simp only [closeStream, held] at closed
      cases closed
      exact .refl
  | some ds =>
      simp only [closeStream, held] at closed
      rcases @closeFd_cases p ds.vfd with ⟨missing, result⟩ | ⟨fd, there, result⟩
      · rw [result] at closed
        cases closed
        have absent : ds.vfd ∉ p.fdTable := by
          intro there
          obtain ⟨fd, found⟩ := exists_of_mem there
          cases missing.symm.trans found
        exact moves_close held rfl rfl (erase_of_not_mem absent).symm
      · rw [result] at closed
        cases closed
        exact moves_close held rfl rfl rfl

theorem tebakoClosedir_moves : Moves (some dirp) p (p.tebakoClosedir dirp).2.2 := by
  rcases closed : p.closeStream dirp with ⟨ret, calls, after⟩
  have moves := closeStream_moves closed
  simp only [tebakoClosedir, closed]
  split
  · split
    · refine moves.trans (moves_known rfl rfl fun other different => ?_)
      simp [different]
    · exact moves
  · exact moves

theorem readdir_moves :
    Moves (some dirp) p { p with dsTable := (p.dsTable.readdir p.fdTable memfsTable dirp).2 } := by
  cases held : p.dsTable[dirp]? with
  | none =>
      simp only [DsTable.readdir, held]
      exact .refl
  | some ds =>
      simp only [DsTable.readdir, held]
      exact moves_update held readdir_vfd rfl rfl rfl

theorem scanEntries_moves {sel : TebakoDirent → Bool} {before scanned : DsTable} {list : List TebakoDirent}
    (read : p.scanEntries w sel dirp fuel before = some (list, scanned)) :
    Moves (some dirp) { p with dsTable := before } { p with dsTable := scanned } := by
  induction fuel generalizing before list with
  | zero => cases read
  | succ fuel ih =>
      have first : Moves (some dirp) { p with dsTable := before }
          { p with dsTable := (before.readdir p.fdTable w.memfsTable dirp).2 } :=
        @readdir_moves { p with dsTable := before } dirp w.memfsTable
      rcases answer : before.readdir p.fdTable w.memfsTable dirp with ⟨⟨code, handed⟩, next⟩
      rw [answer] at first
      cases handed with
      | none =>
          simp only [scanEntries, answer, Option.some.injEq, Prod.mk.injEq] at read
          obtain ⟨_, rfl⟩ := read
          exact first
      | some slot =>
          cases slot with
          | none =>
              simp only [scanEntries, answer] at read
              exact first.trans (ih read)
          | some entry =>
              simp only [scanEntries, answer] at read
              obtain ⟨⟨rest, table⟩, more, same⟩ := Option.map_eq_some_iff.mp read
              cases same
              exact first.trans (ih more)

theorem tebakoScandir_moves {wanted : Bool} {sel : TebakoDirent → Bool}
    {result : Traced (Option (List TebakoDirent))} (owned : p.Owned) (own : p.StreamsOwn)
    (done : p.tebakoScandir w fuel dirname wanted sel handle into = some result) :
    Moves (some into.address) p result.2.2 := by
  cases dirname with
  | none =>
      cases done
      exact .refl
  | some name =>
      cases known : toTebakoPath w.cwd name with
      | none =>
          simp only [tebakoScandir, known, Option.some.injEq] at done
          subst done
          exact .refl
      | some path =>
          simp only [tebakoScandir, known] at done
          obtain ⟨⟨⟨outside, vfd⟩, calls, after⟩, opened, rest⟩ := Option.bind_eq_some_iff.mp done
          obtain ⟨moves, reads⟩ := @openDir_moves _ _ (some into.address) _ _ _ _ _ _ _ owned own opened
          simp only at rest
          split at rest
          · cases rest
            exact moves
          · rename_i proper
            have opening := moves.trans (@openStream_moves after vfd w into (reads (by omega)).2)
            rcases @openStream_reads after vfd w into with failed | ⟨ds, _, _, stream⟩
            · simp only [failed, ↓reduceIte, Option.some.injEq] at rest
              subst rest
              exact moves
            · simp only [stream] at rest opening
              split at rest
              · cases rest
                exact opening
              · obtain ⟨⟨list, scanned⟩, read, same⟩ := Option.map_eq_some_iff.mp rest
                have reading := scanEntries_moves read
                have scanning : Moves (some into.address) p { after with dsTable := scanned } := opening.trans reading
                rcases closed : Process.closeStream { after with dsTable := scanned } into.address with
                  ⟨ret, more, last⟩
                simp only [closed] at same
                subst same
                exact scanning.trans (closeStream_moves closed)

end Streams

end Process

/-! ## The calls of a program -/

/-- Where the stream lies that the call may open or close. -/
def FileOp.address : FileOp → Option Nat
  | .closedir dirp => some dirp
  | op => op.memory.map (·.address)

/-- No stream at the address is opened or closed, other than by a call on streams. -/
def ProgramOp.Elsewhere (dirp : Nat) : ProgramOp → Prop
  | .file op => op.address ≠ some dirp
  | .stream _ _ => True

def ProgramOp.callOn (dirp : Nat) : ProgramOp → Option DirCall
  | .file _ => none
  | .stream other call => if other = dirp then some call else none

namespace Process

/-- The descriptor of a stream is not closed, and not made another stream. -/
def Heeds (p : Process) : FileOp → Prop
  | .close vfd => p.Unread vfd
  | .fdopendir _ vfd _ => p.Unread vfd
  | _ => True

def Disciplined (p : Process) : ProgramOp → Prop
  | .file op => p.Allocates op ∧ p.Permits op ∧ p.Heeds op
  | .stream dirp .closedir => p.Permits (.closedir dirp)
  | .stream _ _ => True

variable {p after : Process} {dirp : Nat} {vfd : Int} {call : DirCall} {op : ProgramOp}

theorem callOn_eq (watched : op.callOn dirp = some call) : op = .stream dirp call := by
  cases op with
  | file op => cases watched
  | stream other made =>
      simp only [ProgramOp.callOn] at watched
      split at watched
      · rename_i same
        cases watched
        rw [same]
      · cases watched

theorem processStep_moves {op : FileOp} (owned : p.Owned) (own : p.StreamsOwn) (heeds : p.Heeds op) :
    Moves op.address p (processStep op p).2 := by
  cases op with
  | openFile w fuel path flags mode hosted handle =>
      cases done : Tebako.tebakoOpen w fuel path flags mode p.host.dupStdin.1 p.fdTable with
      | none =>
          simp only [processStep, tebakoOpen, done]
          exact .refl
      | some result =>
          simp only [processStep, tebakoOpen, done]
          exact opened_moves owned (tebakoOpen_answered done)
  | openAt w fuel vfd path flags mode hosted handle =>
      cases done : Tebako.tebakoOpenat w fuel vfd path flags mode p.host.dupStdin.1 p.fdTable with
      | none =>
          simp only [processStep, tebakoOpenat, done]
          exact .refl
      | some result =>
          simp only [processStep, tebakoOpenat, done]
          exact opened_moves owned (tebakoOpenat_answered done)
  | close vfd => exact tebakoClose_moves heeds
  | read memfsTable vfd nbyte => exact moves_of_sameFiles rfl rfl fun _ => read_sameFile _
  | pread memfsTable vfd nbyte offset => exact .refl
  | readv memfsTable vfd iov => exact moves_of_sameFiles rfl rfl fun _ => readv_sameFile _
  | lseek vfd offset whence => exact moves_of_sameFiles rfl rfl fun _ => lseek_sameFile _
  | fstat vfd => exact .refl
  | fstatat w fuel vfd path flag => exact .refl
  | flock vfd operation => exact moves_of_sameFiles rfl rfl fun _ => flock_sameFile _
  | opendir w fuel dirname hosted handle into =>
      cases done : p.tebakoOpendir w fuel dirname hosted handle into with
      | none =>
          simp only [processStep, done]
          exact .refl
      | some result =>
          simp only [processStep, done]
          exact tebakoOpendir_moves owned own done
  | fdopendir w vfd into => exact tebakoFdopendir_moves heeds
  | closedir dirp => exact tebakoClosedir_moves
  | scandir w fuel dirname wanted sel handle into =>
      cases done : p.tebakoScandir w fuel dirname wanted sel handle into with
      | none =>
          simp only [processStep, done]
          exact .refl
      | some result =>
          simp only [processStep, done]
          exact tebakoScandir_moves owned own done

theorem seekdir_moves {loc : Int} :
    Moves (some dirp) p { p with dsTable := (p.dsTable.seekdir dirp loc).2 } := by
  cases held : p.dsTable[dirp]? with
  | none =>
      simp only [DsTable.seekdir, held]
      exact .refl
  | some ds =>
      simp only [DsTable.seekdir, held]
      exact moves_update held (by rfl) rfl rfl rfl

theorem streamCall_moves : Moves (some dirp) p (p.streamCall dirp call).2 := by
  cases call with
  | readdir memfsTable => exact readdir_moves
  | telldir => exact .refl
  | seekdir loc => exact seekdir_moves
  | dirfd => exact .refl
  | closedir => exact tebakoClosedir_moves

theorem Owned.fewerStreams {table : DsTable} (owned : p.Owned) (fewer : ∀ other ∈ table, other ∈ p.dsTable) :
    Owned { p with dsTable := table } where
  held := owned.held
  apart other there := owned.apart other (fewer other there)

theorem mem_of_update {table : DsTable} {ds twin : TebakoDs} {other : Nat} (held : table[dirp]? = some ds)
    (there : other ∈ Std.ExtTreeMap.insert table dirp twin) : other ∈ table := by
  rcases mem_insert_iff.mp there with here | listed
  · rw [here]
    exact mem_of_getElem? held
  · exact listed

theorem streamCall_owned (owned : p.Owned) (disciplined : p.Disciplined (.stream dirp call)) :
    (p.streamCall dirp call).2.Owned := by
  cases held : p.dsTable[dirp]? with
  | none =>
      cases call with
      | closedir => exact (tebakoClosedir_sound owned disciplined).1
      | readdir memfsTable =>
          simp only [streamCall, tebakoReaddir, DsTable.readdir, held]
          exact owned
      | seekdir loc =>
          simp only [streamCall, tebakoSeekdir, DsTable.seekdir, held]
          exact owned
      | telldir => exact owned
      | dirfd => exact owned
  | some ds =>
      cases call with
      | closedir => exact (tebakoClosedir_sound owned disciplined).1
      | readdir memfsTable =>
          simp only [streamCall, tebakoReaddir, DsTable.readdir, held]
          exact owned.fewerStreams fun other there => mem_of_update held there
      | seekdir loc =>
          simp only [streamCall, tebakoSeekdir, DsTable.seekdir, held]
          exact owned.fewerStreams fun other there => mem_of_update held there
      | telldir => exact owned
      | dirfd => exact owned

/-- Numbers of the table are held for it, and streams read from their own. -/
structure Kept (p : Process) : Prop where
  owned : p.Owned
  own : p.StreamsOwn

theorem Kept.step (kept : p.Kept) (disciplined : p.Disciplined op) : (programStep op p).2.Kept := by
  cases op with
  | file op =>
      obtain ⟨allocates, permitted, heeds⟩ := disciplined
      exact ⟨(step_sound kept.owned allocates permitted).1, (processStep_moves kept.owned kept.own heeds).own kept.own⟩
  | stream dirp call => exact ⟨streamCall_owned kept.owned disciplined, streamCall_moves.own kept.own⟩

/-- A call that is not about the stream leaves it alone. -/
theorem Kept.leaves (kept : p.Kept) (disciplined : p.Disciplined op) (elsewhere : op.Elsewhere dirp)
    (idle : op.callOn dirp = none) : Leaves dirp p (programStep op p).2 := by
  cases op with
  | file op => exact (processStep_moves kept.owned kept.own disciplined.2.2).leaves kept.own dirp elsewhere
  | stream other call =>
      refine streamCall_moves.leaves kept.own dirp fun same => ?_
      cases same
      simp [ProgramOp.callOn] at idle

end Process

/-! ## One stream -/

section Watching

variable {listing : DirListing} {ino : UInt64} {vfd : Int} {dirp : Nat} {p after : Process} {call : DirCall}

/-- Reads find the images in order, and no position is negative. -/
def DirCall.Fits (listing : DirListing) (ino : UInt64) : SeenStream → DirCall → Prop
  | .memfs _, .readdir memfsTable => ReadsListing listing ino memfsTable
  | .memfs _, .seekdir loc => 0 ≤ loc.toInt
  | _, _ => True

namespace Process

def Sees (listing : DirListing) (ino : UInt64) (vfd : Int) (dirp : Nat) (p : Process) : SeenStream → Prop
  | .memfs position => listing.entries.length < 2 ^ 31 ∧ 0 ≤ vfd ∧
      Tracks listing ino dirp vfd ⟨p.dsTable, p.fdTable⟩ position
  | .host => dirp ∉ p.dsTable ∧ dirp ∈ p.kfdTable
  | .closed => dirp ∉ p.dsTable ∧ dirp ∉ p.kfdTable

theorem Sees.leaves {seen : SeenStream} (sees : p.Sees listing ino vfd dirp seen) (leaves : Leaves dirp p after) :
    after.Sees listing ino vfd dirp seen := by
  have streams : dirp ∈ after.dsTable ↔ dirp ∈ p.dsTable := by
    rw [Std.ExtTreeMap.mem_iff_isSome_getElem?, Std.ExtTreeMap.mem_iff_isSome_getElem?, leaves.stream]
  cases seen with
  | memfs position =>
      obtain ⟨few, valid, ⟨fd, held, same⟩, ⟨ds, found, rfl, stream⟩, nonneg⟩ := sees
      have file := leaves.file found
      rw [held, Option.map_some] at file
      obtain ⟨other, there, alike⟩ := Option.map_eq_some_iff.mp file
      exact ⟨few, valid, ⟨other, there, by rw [alike, same]⟩, ⟨ds, leaves.stream.trans found, rfl, stream⟩, nonneg⟩
  | host => exact ⟨fun there => sees.1 (streams.mp there), leaves.known.mpr sees.2⟩
  | closed => exact ⟨fun there => sees.1 (streams.mp there), fun there => sees.2 (leaves.known.mp there)⟩

/-- The reply to a call, and what the stream is afterwards. -/
structure Replies (listing : DirListing) (ino : UInt64) (vfd : Int) (dirp : Nat) (p : Process) (call : DirCall)
    (seen : SeenStream) : Prop where
  reply : (p.streamCall dirp call).1 = (seenStep listing vfd call seen).1
  next : (p.streamCall dirp call).2.Sees listing ino vfd dirp (seenStep listing vfd call seen).2

theorem replies_closed (absent : dirp ∉ p.dsTable) (unknown : dirp ∉ p.kfdTable) :
    Replies listing ino vfd dirp p call .closed := by
  have missing : p.dsTable[dirp]? = none := Std.ExtTreeMap.getElem?_eq_none absent
  have unchecked : p.kfdTable.check dirp = false := by
    rw [← Bool.not_eq_true, KfdTable.check_iff]
    exact unknown
  have reply : p.streamCall dirp call = (.badDescriptor, p) := by
    cases call with
    | readdir memfsTable =>
        simp [streamCall, tebakoReaddir, DsTable.readdir, missing, passStream, unchecked]
    | telldir => simp [streamCall, tebakoTelldir, DsTable.telldir, missing, passStream, unchecked]
    | seekdir loc => simp [streamCall, tebakoSeekdir, DsTable.seekdir, missing, passStream, unchecked]
    | dirfd => simp [streamCall, tebakoDirfd, DsTable.dirfd, missing, passStream, unchecked]
    | closedir => simp [streamCall, tebakoClosedir, closeStream, missing, unchecked]
  have model : seenStep listing vfd call .closed = (.badDescriptor, .closed) := by
    cases call <;> rfl
  constructor
  · rw [reply, model]
  · rw [reply, model]
    exact ⟨absent, unknown⟩

theorem replies_host (absent : dirp ∉ p.dsTable) (known : dirp ∈ p.kfdTable) :
    Replies listing ino vfd dirp p call .host := by
  have missing : p.dsTable[dirp]? = none := Std.ExtTreeMap.getElem?_eq_none absent
  have checked : p.kfdTable.check dirp = true := KfdTable.check_iff.mpr known
  by_cases closing : call = .closedir
  · subst closing
    constructor
    · simp [streamCall, tebakoClosedir, closeStream, missing, checked, seenStep, dwarfsIoError]
    · simp only [streamCall, tebakoClosedir, closeStream, missing, checked, seenStep, ↓reduceIte]
      exact ⟨absent, fun there => (KfdTable.mem_erase.mp there).1 rfl⟩
  · have reply : p.streamCall dirp call = (.host, p) := by
      cases call with
      | readdir memfsTable =>
          simp [streamCall, tebakoReaddir, DsTable.readdir, missing, passStream, checked]
      | telldir => simp [streamCall, tebakoTelldir, DsTable.telldir, missing, passStream, checked]
      | seekdir loc => simp [streamCall, tebakoSeekdir, DsTable.seekdir, missing, passStream, checked]
      | dirfd => simp [streamCall, tebakoDirfd, DsTable.dirfd, missing, passStream, checked]
      | closedir => exact absurd rfl closing
    have model : seenStep listing vfd call .host = (.host, .host) := by
      cases call with
      | closedir => exact absurd rfl closing
      | _ => rfl
    constructor
    · rw [reply, model]
    · rw [reply, model]
      exact ⟨absent, known⟩

theorem replies_memfs {position : Int} (kept : p.Kept) (sees : p.Sees listing ino vfd dirp (.memfs position))
    (fits : call.Fits listing ino (.memfs position)) : Replies listing ino vfd dirp p call (.memfs position) := by
  obtain ⟨few, valid, tracks⟩ := id sees
  obtain ⟨⟨fd, opened, same⟩, ⟨ds, held, rfl, rfl, stream⟩, nonneg⟩ := id tracks
  have held : p.dsTable[dirp]? = some ds := held
  have opened : p.fdTable[ds.vfd]? = some fd := opened
  cases call with
  | readdir memfsTable =>
      have reads : (DirOp.readdir memfsTable).Reads listing ino := fits
      obtain ⟨answer, next⟩ := dirStep_tracks few tracks reads
      rcases read : ds.readdir p.fdTable memfsTable with ⟨⟨ret, entry⟩, twin⟩
      simp only [dirStep, DsTable.readdir, held, plainStep, read] at answer next
      by_cases inside : ds.dirPosition < listing.entries.length
      · simp only [inside, ↓reduceIte, DirAnswer.entry.injEq] at answer next
        obtain ⟨rfl, rfl⟩ := answer
        constructor
        · simp [streamCall, tebakoReaddir, DsTable.readdir, held, read, seenStep, inside, dwarfsInvalidFd]
        · simp only [streamCall, tebakoReaddir, DsTable.readdir, held, read, seenStep, inside, ↓reduceIte]
          exact ⟨few, valid, next⟩
      · simp only [inside, ↓reduceIte, DirAnswer.entry.injEq] at answer next
        obtain ⟨rfl, rfl⟩ := answer
        constructor
        · simp [streamCall, tebakoReaddir, DsTable.readdir, held, read, seenStep, inside, dwarfsInvalidFd]
        · simp only [streamCall, tebakoReaddir, DsTable.readdir, held, read, seenStep, inside, ↓reduceIte]
          exact ⟨few, valid, next⟩
  | telldir =>
      have code : ds.dirPosition ≠ dwarfsInvalidFd := by
        unfold dwarfsInvalidFd
        omega
      constructor
      · simp [streamCall, tebakoTelldir, DsTable.telldir, held, code, seenStep]
      · exact sees
  | seekdir loc =>
      have reads : (DirOp.seekdir loc).Reads listing ino := fits
      obtain ⟨_, next⟩ := dirStep_tracks few tracks reads
      constructor
      · simp [streamCall, tebakoSeekdir, DsTable.seekdir, held, seenStep, dwarfsIoContinue, dwarfsInvalidFd]
      · exact ⟨few, valid, next⟩
  | dirfd =>
      have code : ds.vfd ≠ dwarfsInvalidFd := by
        unfold dwarfsInvalidFd
        omega
      constructor
      · simp [streamCall, tebakoDirfd, DsTable.dirfd, held, code, seenStep]
      · exact sees
  | closedir =>
      have unknown := kept.owned.apart dirp (mem_of_getElem? held)
      constructor
      · simp [streamCall, tebakoClosedir, closeStream, held, closeFd, opened, seenStep, dwarfsIoContinue,
          dwarfsInvalidFd, dwarfsIoError]
      · simp only [streamCall, tebakoClosedir, closeStream, held, closeFd, opened, seenStep, dwarfsIoContinue,
          dwarfsInvalidFd]
        exact ⟨fun there => (mem_erase_iff.mp there).1 rfl, unknown⟩

theorem replies {seen : SeenStream} (kept : p.Kept) (sees : p.Sees listing ino vfd dirp seen)
    (fits : call.Fits listing ino seen) : Replies listing ino vfd dirp p call seen := by
  cases seen with
  | memfs position => exact replies_memfs kept sees fits
  | host => exact replies_host sees.1 sees.2
  | closed => exact replies_closed sees.1 sees.2

theorem programStep_watches :
    Machine.Watches programStep (seenStep listing vfd) (ProgramOp.callOn dirp) ProgramAnswer.reply
      (fun p op => p.Disciplined op ∧ op.Elsewhere dirp) (DirCall.Fits listing ino)
      (fun p seen => p.Kept ∧ p.Sees listing ino vfd dirp seen) where
  answer {p seen op call} related allowed watched fits := by
    obtain rfl := callOn_eq watched
    exact congrArg ProgramAnswer.reply (replies related.1 related.2 fits).reply
  next {p seen op call} related allowed watched fits := by
    obtain rfl := callOn_eq watched
    exact ⟨related.1.step allowed.1, (replies related.1 related.2 fits).next⟩
  idle {p seen op} related allowed watched :=
    ⟨related.1.step allowed.1, related.2.leaves (related.1.leaves allowed.1 allowed.2 watched)⟩

end Process

/-- In every run the calls on the stream are answered as if it was alone, until
another stream comes to lie at its address. -/
def Process.AnswersAs (listing : DirListing) (ino : UInt64) (vfd : Int) (dirp : Nat) (p : Process)
    (seen : SeenStream) : Prop :=
  ∀ ops, Machine.Allows programStep (fun p op => p.Disciplined op ∧ op.Elsewhere dirp) ops p →
    Machine.Allows (seenStep listing vfd) (DirCall.Fits listing ino) (ops.filterMap (ProgramOp.callOn dirp)) seen →
    Machine.seen (ProgramOp.callOn dirp) ops (Machine.answers programStep ops p) =
      (Machine.answers (seenStep listing vfd) (ops.filterMap (ProgramOp.callOn dirp)) seen).map .reply

end Watching

/-- The path names a directory of an image, which is listed with these entries. -/
structure World.LeadsToListing (w : World) (given : CString) (st : FileStat) (listing : DirListing) : Prop where
  dir : st.isDir = true
  listed : ∃ path index memfs pi, w.LeadsTo given path (.inode index pi) st ∧
    w.memfsTable[index]? = some memfs ∧ pi.inodeNum < 2 ^ 31 ∧ ListedAs memfs pi listing

theorem Process.Sees.answersAs {listing : DirListing} {ino : UInt64} {vfd : Int} {dirp : Nat} {p : Process}
    {seen : SeenStream} (sees : p.Sees listing ino vfd dirp seen) (kept : p.Kept) :
    p.AnswersAs listing ino vfd dirp seen :=
  fun _ allowed fits => Process.programStep_watches.seen_eq ⟨kept, sees⟩ allowed fits

theorem reachable_kept {start p : Process} (noFds : start.fdTable = ∅) (noStreams : start.dsTable = ∅)
    (reached : Machine.Reaches programStep Process.Disciplined start p) : p.Kept := by
  refine reached.invariant ⟨⟨?_, ?_⟩, ⟨?_, ?_⟩⟩ fun _ _ kept disciplined => kept.step disciplined
  · intro vfd fd there
    simp [noFds] at there
  · intro dirp there
    simp [noStreams] at there
  · intro dirp ds there
    simp [noStreams] at there
  · intro dirp other ds twin there
    simp [noStreams] at there

/-- Whatever the program has done, and whatever it does next: a directory of the
memfs that it opens is a bare position in the entries of the directory, until it
is closed; a stream of the host is handed to the host; and where no stream is,
the call fails. -/
theorem program_sees_streams (start p : Process) (noFds : start.fdTable = ∅) (noStreams : start.dsTable = ∅)
    (reached : Machine.Reaches programStep Process.Disciplined start p) :
    (∀ w given st listing into hosted handle, World.LeadsToListing w given st listing →
      0 ≤ p.host.dupStdin.1 → p.Places into →
        ∃ enough calls after, (∀ fuel ≥ enough,
            p.tebakoOpendir w fuel (some given) hosted handle into = some (into.address, calls, after)) ∧
          after.AnswersAs listing st.ino p.host.dupStdin.1 into.address (.memfs 0)) ∧
      (∀ listing ino vfd, ∀ dirp ∈ p.kfdTable, p.AnswersAs listing ino vfd dirp .host) ∧
      ∀ listing ino vfd dirp, dirp ∉ p.dsTable → dirp ∉ p.kfdTable →
        p.AnswersAs listing ino vfd dirp .closed := by
  have kept := reachable_kept noFds noStreams reached
  refine ⟨?_, ?_, ?_⟩
  · intro w given st listing into hosted handle leads taken places
    obtain ⟨dir, path, index, memfs, pi, reached, held, numbered, listed⟩ := leads
    obtain ⟨other, sameImage, stat⟩ := node_attributes reached.stat
    obtain rfl := Option.some.inj (held.symm.trans sameImage)
    obtain ⟨enough, calls, after, opens, _, tracks⟩ := @World.LeadsTo.opendir w memfs index pi st _ listing p into
      given path hosted handle reached dir held stat numbered listed rfl taken places.1
    refine ⟨enough, calls, after, opens, Process.Sees.answersAs ⟨listed.few, taken, tracks⟩ ?_⟩
    obtain ⟨more, ran⟩ := reached.dwarfsStat
    have disciplined : p.Disciplined (.file (.opendir w (max enough more) (some given) hosted handle into)) := by
      refine ⟨?_, ?_, trivial⟩
      · intro other same
        cases same
        exact places
      · intro name other same known full
        cases same
        obtain rfl := Option.some.inj (reached.known.symm.trans known)
        have plain : OpensPlainly oDirectory st := ⟨by decide, by decide, fun _ => dir⟩
        have free : p.host.dupStdin.1 ≠ dwarfsIoError := by
          unfold dwarfsIoError
          omega
        have follows : decide (oDirectory &&& oNofollow = 0) = true := by decide
        simp only [FdTable.open, follows, ran _ (Nat.le_max_right enough more), Option.map_some,
          openFound_of_plain plain free] at full
        cases full
    have stepped := kept.step disciplined
    simp only [programStep, processStep, opens _ (Nat.le_max_left enough more)] at stepped
    exact stepped
  · intro listing ino vfd dirp known
    have sees : p.Sees listing ino vfd dirp .host := ⟨fun there => kept.owned.apart dirp there known, known⟩
    exact sees.answersAs kept
  · intro listing ino vfd dirp absent unknown
    have sees : p.Sees listing ino vfd dirp .closed := ⟨absent, unknown⟩
    exact sees.answersAs kept

/-- The directory is read next to a file, which the root of the memfs has. -/
def readInTurns : List ProgramOp :=
  [.stream 7 (.readdir storedWorld.memfsTable), .file (.read oneFileWorld.memfsTable 1 4), .stream 7 .telldir,
    .stream 8 (.readdir storedWorld.memfsTable), .stream 7 (.readdir storedWorld.memfsTable),
    .file (.flock 1 2), .stream 7 .dirfd]

theorem stored_directory_seen :
    ∃ enough calls after, (∀ fuel ≥ enough, oneFileOpen.tebakoOpendir storedWorld fuel (some storedDirectory) false 0
        storedMemory = some (7, calls, after)) ∧
      Machine.seen (ProgramOp.callOn 7) readInTurns (Machine.answers programStep readInTurns after) =
        [.reply (.entry (some (storedListing.dirent 0))), .reply (.number 1), .reply (.entry none),
          .reply (.number 2)] := by
  have reached : Machine.Reaches programStep Process.Disciplined freshProcess oneFileOpen :=
    .step (ProgramOp.file openOneFile) .start (show Process.Disciplined _ (.file openOneFile) from
      ⟨openOneFile_permitted.1, openOneFile_permitted.2, trivial⟩)
  have leads : storedWorld.LeadsToListing storedDirectory ⟨2 ^ 31, 0o040755, 0⟩ storedListing :=
    ⟨by decide, _, 1, storedImage, ⟨0⟩, storedWorld_leads_directory, by rfl, by decide, storedListing_listed⟩
  have places : oneFileOpen.Places storedMemory := ⟨by decide, by decide +kernel, by decide +kernel⟩
  have number : oneFileOpen.host.dupStdin.1 = 2 := by decide +kernel
  obtain ⟨enough, calls, after, opens, answered⟩ := (program_sees_streams freshProcess oneFileOpen rfl rfl
    reached).1 storedWorld storedDirectory _ storedListing storedMemory false 0 leads (by rw [number]; decide) places
  refine ⟨enough, calls, after, opens, ?_⟩
  have reads : ReadsListing storedListing (2 ^ 31) storedWorld.memfsTable :=
    ⟨storedImage, by rfl, storedImage_readable⟩
  refine (answered readInTurns ?_ ?_).trans ?_
  · exact ⟨⟨trivial, trivial⟩, ⟨⟨nofun, trivial, trivial⟩, nofun⟩, ⟨trivial, trivial⟩, ⟨trivial, trivial⟩,
      ⟨trivial, trivial⟩, ⟨⟨nofun, trivial, trivial⟩, nofun⟩, ⟨trivial, trivial⟩, trivial⟩
  · exact ⟨reads, trivial, reads, trivial, trivial⟩
  · rw [number]
    rfl

end Tebako
