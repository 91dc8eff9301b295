import Tebako.DirStream

namespace Tebako

open Data

/-! Runs of operations on an open directory stream. -/

structure DirStreams where
  dsTable : DsTable
  fdTable : FdTable

/-- The operations on a stream. A read comes with the images as they answer
while it lasts. -/
inductive DirOp where
  | readdir (memfsTable : MemfsTable)
  | telldir
  | seekdir (pos : Int64)
  | close

inductive DirAnswer where
  | entry (ret : Int) (handed : Option TebakoDs.Handed)
  | number (value : Int)

def DirAnswer.handed : DirAnswer → Option TebakoDs.Handed
  | .entry _ handed => handed
  | .number _ => none

def dirStep (dirp : Nat) (vfd : Int) : Machine DirStreams DirOp DirAnswer
  | .readdir memfsTable, state =>
      let (answer, dsTable) := state.dsTable.readdir state.fdTable memfsTable dirp
      (.entry answer.1 answer.2, { state with dsTable := dsTable })
  | .telldir, state => (.number (state.dsTable.telldir dirp), state)
  | .seekdir pos, state =>
      let (ret, dsTable) := state.dsTable.seekdir dirp pos.toInt
      (.number ret, { state with dsTable := dsTable })
  | .close, state =>
      let (ret, fdTable) := state.fdTable.close vfd
      (.number ret, { state with fdTable := fdTable })

/-- A stream just opened on the directory behind the descriptor `vfd`. -/
structure OpensStream (listing : DirListing) (ino : UInt64) (dirp : Nat) (vfd : Int)
    (memfsTable : MemfsTable) (start : DirStreams) : Prop where
  inode : DescribesInode start.fdTable vfd ino
  shown : ShowsListing listing ino memfsTable
  opened : ∃ table memory size, DsTable.opendir table start.fdTable memfsTable vfd dirp memory =
    (dirp, size, start.dsTable)
  address : dirp ≠ 0

variable {listing : DirListing} {ino : UInt64} {dirp : Nat}
variable {vfd : Int} {memfsTable : MemfsTable} {start state : DirStreams}

theorem OpensStream.stream {holds : Int → TebakoDirent → Prop}
    (opens : OpensStream listing ino dirp vfd memfsTable start)
    (right : ∀ fs, memfsTable[getFsIndex ino.toUInt32.toUInt64]? = some fs →
      ∀ (offset : Nat) entry, listing.entries[offset]? = some entry →
        holds offset (fs.dirent offset entry)) :
    ∃ ds, start.dsTable[dirp]? = some ds ∧ ds.vfd = vfd ∧ ds.dirPosition = 0 ∧
      StreamInvariant listing holds ds ∧ (ds.dirSize ≠ 0 → 0 < ds.cacheSize) := by
  obtain ⟨table, memory, size, result⟩ := opens.opened
  simp only [DsTable.opendir] at result
  rcases @loadCache_cases listing holds (TebakoDs.make vfd memory) _ _ _ _ true opens.inode
    opens.shown right (Int.le_refl 0) (by decide) with ⟨into, loaded, read⟩ | ⟨ret, into, failed, _, _, read⟩
  · simp only [read, dwarfsIoContinue, ↓reduceIte, Prod.mk.injEq, true_and] at result
    refine ⟨_, by rw [← result.2, Std.ExtTreeMap.getElem?_insert_self], rfl, rfl, ?_, ?_⟩
    · exact ⟨loaded.filled, Int.le_refl 0, show (0 : Int) < 2 ^ 31 by decide, loaded.dirSize,
      show (0 : Int) < 2 ^ 63 by decide⟩
    · intro nonempty
      change into.dirSize ≠ 0 at nonempty
      have size := loaded.dirSize
      exact loaded.nonempty (by omega)
  · have different : ¬ ret = dwarfsIoContinue := failed
    simp only [read, if_neg different, Prod.mk.injEq] at result
    exact absurd result.1.symm opens.address

def DirOp.Shows (listing : DirListing) (ino : UInt64) : DirOp → Prop
  | .readdir memfsTable => ShowsListing listing ino memfsTable
  | _ => True

def DirOp.ReadsSafely (dirp : Nat) (state : DirStreams) : DirOp → Prop
  | .readdir _ => ∀ ds, state.dsTable[dirp]? = some ds → ds.ReadsSafely
  | _ => True

structure StreamsInvariant (listing : DirListing) (ino : UInt64) (dirp : Nat) (vfd : Int)
    (state : DirStreams) : Prop where
  inode : DescribesInode state.fdTable vfd ino
  stream : ∃ ds, state.dsTable[dirp]? = some ds ∧ ds.vfd = vfd ∧
    StreamInvariant listing listing.Describes ds

theorem dirStep_keeps {op : DirOp} (invariant : StreamsInvariant listing ino dirp vfd state)
    (shown : op.Shows listing ino) (safe : op.ReadsSafely dirp state) :
    StreamsInvariant listing ino dirp vfd (dirStep dirp vfd op state).2 := by
  obtain ⟨inode, ds, held, same, stream⟩ := invariant
  cases op with
  | readdir memfsTable =>
      obtain ⟨kept, descriptor, _⟩ := readdir_keeps (same ▸ inode) shown
        (fun fs mounted offset entry listed => (shown fs mounted).describes listed) stream (safe ds held)
      refine ⟨inode, _, ?_, descriptor.trans same, kept⟩
      simp only [dirStep, DsTable.readdir, held]
      exact Std.ExtTreeMap.getElem?_insert_self
  | telldir => exact ⟨inode, ds, held, same, stream⟩
  | seekdir pos =>
      have range := pos.toInt_lt
      refine ⟨inode, { ds with dirPosition := pos.toInt }, ?_, same, stream.filled,
        stream.startNonneg, stream.startSmall, stream.dirSize, range⟩
      simp only [dirStep, DsTable.seekdir, held]
      exact Std.ExtTreeMap.getElem?_insert_self
  | close =>
      refine ⟨?_, ds, held, same, stream⟩
      intro fd found
      have step : (dirStep dirp vfd .close state).2.fdTable = Std.ExtTreeMap.erase state.fdTable vfd :=
        rfl
      simp [step] at found

/-! ## A directory of given names -/

/-- An image of a single directory, its root, that is listed with `names`. -/
def directoryImage (names : List Str) : Memfs :=
  { makeMemfs {} [] 0 with
    fs :=
      { find := fun inode => if inode = 0 then some ⟨0⟩ else none
        findChild := fun _ _ => none
        getattr := fun _ => .ok { mode := 0o040755, size := 0 }
        readlink := fun _ => .error .EINVAL
        opendir := fun _ => some ⟨0⟩
        dirsize := fun _ => names.length
        readdir := fun _ offset => (names.map fun name => (⟨0⟩, name))[offset]?
        read := fun _ _ _ => .error .EINVAL } }

def directoryListing (names : List Str) : DirListing where
  root := 0
  entries := names.map fun name => (⟨0⟩, name)
  attr _ := { mode := 0o040755, size := 0 }

def directoryImages (names : List Str) : MemfsTable :=
  Std.ExtTreeMap.insert (∅ : MemfsTable) 0 (directoryImage names)

def blankDirent : TebakoDirent := { dIno := none, dOff := 0, dType := none, dName := cStr [] }

def directoryFd : TebakoFd where
  st := { ino := 0, mode := 0o040755, size := 0 }
  pos := 0
  lock := 0
  handle := 3

def directoryFds : FdTable := Std.ExtTreeMap.insert (∅ : FdTable) 3 directoryFd

/-- The image's directory, open on descriptor 3 with a stream at address 1. -/
def openedDirectory (names : List Str) : DirStreams where
  fdTable := directoryFds
  dsTable := (DsTable.opendir ∅ directoryFds (directoryImages names) 3 1 (.replicate _ blankDirent)).2.2

theorem directoryImage_readable (names : List Str) :
    (directoryListing names).ReadableIn (directoryImage names) 0 where
  root := rfl
  dirsize view dir _ _ := by simp [directoryImage, directoryListing]
  readdir view dir offset entry _ _ read := read
  attr view attr same := by
    cases same
    rfl
  opens := by
    refine ⟨⟨0⟩, ⟨0⟩, by simp [Memfs.find, directoryImage, makeMemfs], rfl, fun offset below => ?_⟩
    change ((directoryListing names).entries[offset]?).isSome
    simp only [List.getElem?_eq_getElem below, Option.isSome_some]
  getattr entry _ := rfl

theorem directoryImages_getElem? (names : List Str) :
    (directoryImages names)[getFsIndex (0 : UInt64).toUInt32.toUInt64]? =
      some (directoryImage names) :=
  Std.ExtTreeMap.getElem?_insert_self

theorem directoryImages_shows (names : List Str) :
    ShowsListing (directoryListing names) 0 (directoryImages names) := by
  intro fs mounted
  obtain rfl := Option.some.inj ((directoryImages_getElem? names).symm.trans mounted)
  exact (directoryImage_readable names).toShownBy

theorem directoryFds_getElem? : directoryFds[(3 : Int)]? = some directoryFd :=
  Std.ExtTreeMap.getElem?_insert_self

theorem openedDirectory_opens (names : List Str) :
    OpensStream (directoryListing names) 0 1 3 (directoryImages names) (openedDirectory names) where
  inode fd found := by
    obtain rfl := Option.some.inj (directoryFds_getElem?.symm.trans found)
    rfl
  shown := directoryImages_shows names
  opened := by
    obtain ⟨into, _, result⟩ := @loadCache_succeeds (directoryListing names) 0 (directoryImages names)
      (TebakoDs.make 3 (.replicate _ blankDirent)) _ directoryFd 0 true directoryFds_getElem? rfl
      ⟨_, directoryImages_getElem? names, directoryImage_readable names⟩ (Int.le_refl 0) (by decide)
    have opened := @opendir_of_load _ ∅ _ _ 1 _ _ result
    exact ⟨∅, .replicate _ blankDirent, into.dirSize,
      opened.trans (congrArg (fun table => (1, into.dirSize, table)) (congrArg (·.2.2) opened).symm)⟩
  address := by decide

/-! ## The window -/

/-- A stream hands out only entries of the window that was loaded last, each
the directory's entry at the position, as long as no read finds the window
emptied at offset 0. -/
theorem readdir_hands_out_loaded (opens : OpensStream listing ino dirp vfd memfsTable start)
    (reached : Machine.Reaches (dirStep dirp vfd)
      (fun state op => op.Shows listing ino ∧ op.ReadsSafely dirp state) start state)
    {images : MemfsTable} (shown : ShowsListing listing ino images)
    (safe : (DirOp.readdir images).ReadsSafely dirp state) :
    ∃ before after, state.dsTable[dirp]? = some before ∧
      (dirStep dirp vfd (.readdir images) state).2.dsTable[dirp]? = some after ∧
      ∀ handed, (dirStep dirp vfd (.readdir images) state).1.handed = some handed →
        HandsOut listing.Describes before.dirPosition handed after := by
  have invariant : StreamsInvariant listing ino dirp vfd state := by
    refine reached.invariant ?_ ?_
    · obtain ⟨ds, held, same, _, stream, _⟩ := opens.stream
        (fun fs mounted offset entry listed => (opens.shown fs mounted).describes listed)
      exact ⟨opens.inode, ds, held, same, stream⟩
    · intro state op kept permitted
      exact dirStep_keeps kept permitted.1 permitted.2
  obtain ⟨inode, ds, held, same, stream⟩ := invariant
  obtain ⟨_, _, handsOut⟩ := readdir_keeps (same ▸ inode) shown
    (fun fs mounted offset entry listed => (shown fs mounted).describes listed) stream (safe ds held)
  refine ⟨ds, (ds.readdir state.fdTable images).2, held, ?_, ?_⟩
  · simp only [dirStep, DsTable.readdir, held]
    exact Std.ExtTreeMap.getElem?_insert_self
  · intro handed answer
    simp only [dirStep, DsTable.readdir, held, DirAnswer.handed] at answer
    exact handsOut handed answer

theorem readsSafely_of_window {images : MemfsTable} {position first : Int} {size : Nat}
    (window : state.dsTable[dirp]?.map (fun ds => (ds.dirPosition, ds.cacheStart, ds.cacheSize)) =
      some (position, first, size)) (small : position < 2 ^ 31) (filled : first ≠ 0 ∨ size ≠ 0) :
    (DirOp.readdir images).ReadsSafely dirp state := by
  intro ds held
  rw [held] at window
  simp only [Option.map_some, Option.some.injEq, Prod.mk.injEq] at window
  obtain ⟨rfl, rfl, rfl⟩ := window
  exact fun _ _ => ⟨fun empty => filled.elim (· empty.1) (· empty.2), fun _ => small⟩

/-- After two reads, the second from another window, and one during which there
is no image to load from. -/
theorem readdir_hands_out_reloaded :
    let names : List Str := (List.range 51).map fun index => [Char.ofNat (48 + index)]
    let images := directoryImages names
    let state := [DirOp.readdir images, .seekdir 50, .readdir images, .seekdir 10, .readdir ∅, .seekdir 10].foldl
      (fun state op => (dirStep 1 3 op state).2) (openedDirectory names)
    (dirStep 1 3 (.readdir images) state).1.handed.isSome ∧
      ∃ before after, state.dsTable[1]? = some before ∧
        (dirStep 1 3 (.readdir images) state).2.dsTable[1]? = some after ∧
        ∀ handed, (dirStep 1 3 (.readdir images) state).1.handed = some handed →
          HandsOut (directoryListing names).Describes before.dirPosition handed after := by
  intro names images state
  refine ⟨by decide +kernel, readdir_hands_out_loaded (openedDirectory_opens names) ?_
    (directoryImages_shows names) ?_⟩
  · have none : ShowsListing (directoryListing names) 0 ∅ := by
      intro fs mounted
      simp at mounted
    have first : Machine.Reaches (dirStep 1 3)
        (fun state op => op.Shows (directoryListing names) 0 ∧ op.ReadsSafely 1 state) (openedDirectory names)
        (dirStep 1 3 (.readdir images) (openedDirectory names)).2 :=
      .step (DirOp.readdir images) .start ⟨directoryImages_shows names,
        @readsSafely_of_window _ _ _ 0 0 50 (by decide +kernel) (by decide) (by decide)⟩
    have second := (first.step (DirOp.seekdir 50) ⟨trivial, trivial⟩).step (DirOp.readdir images)
      ⟨directoryImages_shows names,
        @readsSafely_of_window _ _ _ 50 0 50 (by decide +kernel) (by decide) (by decide)⟩
    have failed := (second.step (DirOp.seekdir 10) ⟨trivial, trivial⟩).step (DirOp.readdir ∅)
      ⟨none, @readsSafely_of_window _ _ _ 10 50 1 (by decide +kernel) (by decide) (by decide)⟩
    exact failed.step (DirOp.seekdir 10) ⟨trivial, trivial⟩
  · exact @readsSafely_of_window _ _ _ 10 50 0 (by decide +kernel) (by decide) (by decide)

/-- Closing the descriptor makes the next load fail. It empties the window but
leaves its start at 0, and the test of `readdir` takes every position for a hit:
the read after the next `seekdir` hands out whatever the array holds. -/
theorem emptied_window_hands_out :
    ¬ ∀ listing ino dirp vfd memfsTable start,
      OpensStream listing ino dirp vfd memfsTable start →
      ∀ state, Machine.Reaches (dirStep dirp vfd) (fun _ op => op.Shows listing ino) start state →
      ∀ images, ShowsListing listing ino images →
      ∃ before after, state.dsTable[dirp]? = some before ∧
        (dirStep dirp vfd (.readdir images) state).2.dsTable[dirp]? = some after ∧
        ∀ handed, (dirStep dirp vfd (.readdir images) state).1.handed = some handed →
          HandsOut listing.Describes before.dirPosition handed after := by
  intro always
  let names : List Str := (List.range 51).map fun index => [Char.ofNat (48 + index)]
  let read : DirOp := .readdir (directoryImages names)
  have reached : Machine.Reaches (dirStep 1 3) (fun _ op => op.Shows (directoryListing names) 0)
      (openedDirectory names) ([DirOp.close, .seekdir 50, read, .seekdir 50].foldl
        (fun state op => (dirStep 1 3 op state).2) (openedDirectory names)) :=
    .step (DirOp.seekdir 50) (.step read (.step (DirOp.seekdir 50) (.step DirOp.close .start trivial)
      trivial) (directoryImages_shows names)) trivial
  obtain ⟨before, after, _, stream, out⟩ := always _ _ _ _ _ _ (openedDirectory_opens names) _
    reached _ (directoryImages_shows names)
  have emptied : ((dirStep 1 3 read ([DirOp.close, .seekdir 50, read, .seekdir 50].foldl
      (fun state op => (dirStep 1 3 op state).2) (openedDirectory names))).2.dsTable[1]?.map
        fun ds => ds.cacheSize) = some 0 := by decide +kernel
  have answered : ((dirStep 1 3 read ([DirOp.close, .seekdir 50, read, .seekdir 50].foldl
      (fun state op => (dirStep 1 3 op state).2) (openedDirectory names))).1.handed).isSome := by
    decide +kernel
  rw [stream] at emptied
  obtain ⟨handed, given⟩ := Option.isSome_iff_exists.mp answered
  have wrong := out handed given
  have low := wrong.notBefore
  have high := wrong.loaded
  simp only [Option.map_some, Option.some.injEq] at emptied
  omega

/-! ## The stream as a bare position -/

/-- A directory read without a cache. -/
def plainStep (listing : DirListing) : Machine Int DirOp DirAnswer
  | .readdir _, position =>
      if position < listing.entries.length then
        (.entry 0 (some (listing.dirent position.toNat)), position + 1)
      else (.entry 0 none, position)
  | .telldir, position => (.number position, position)
  | .seekdir pos, _ => (.number 0, pos.toInt)
  | .close, position => (.number 0, position)

/-- The operations that leave the descriptor open, on images that can be read. -/
def DirOp.Reads (listing : DirListing) (ino : UInt64) : DirOp → Prop
  | .readdir memfsTable => ReadsListing listing ino memfsTable
  | .telldir => True
  | .seekdir pos => 0 ≤ pos.toInt
  | .close => False

structure Tracks (listing : DirListing) (ino : UInt64) (dirp : Nat) (vfd : Int)
    (state : DirStreams) (position : Int) : Prop where
  descriptor : ∃ fd, state.fdTable[vfd]? = some fd ∧ fd.st.ino = ino
  stream : ∃ ds, state.dsTable[dirp]? = some ds ∧ ds.vfd = vfd ∧ ds.dirPosition = position ∧
    StreamInvariant listing listing.Holds ds ∧ (ds.dirSize ≠ 0 → 0 < ds.cacheSize)
  nonneg : 0 ≤ position

theorem dirStep_tracks (few : listing.entries.length < 2 ^ 31) {position : Int} {op : DirOp}
    (tracks : Tracks listing ino dirp vfd state position) (reads : op.Reads listing ino) :
    (dirStep dirp vfd op state).1 = (plainStep listing op position).1 ∧
      Tracks listing ino dirp vfd (dirStep dirp vfd op state).2
        (plainStep listing op position).2 := by
  obtain ⟨descriptor, ⟨ds, held, rfl, rfl, invariant, nonempty⟩, nonneg⟩ := tracks
  cases op with
  | readdir memfsTable =>
      simp only [dirStep, DsTable.readdir, held, plainStep]
      by_cases inside : ds.dirPosition < listing.entries.length
      · obtain ⟨fd, opened, inode⟩ := descriptor
        have window : 0 < ds.cacheSize := by
          apply nonempty
          rw [invariant.dirSize]
          omega
        obtain ⟨after, result, moved, same, later, kept⟩ := readdir_inside opened inode reads
          invariant window nonneg inside few
        simp only [result, if_pos inside]
        exact ⟨trivial, ⟨fd, opened, inode⟩, ⟨after, Std.ExtTreeMap.getElem?_insert_self, same,
          moved, kept, fun _ => later⟩, by omega⟩
      · have range := invariant.position
        have past : ds.dirSize ≤ sizeT ds.dirPosition := by
          have position : (sizeT ds.dirPosition : Int) = ds.dirPosition := by
            apply sizeT_cast <;> omega
          rw [invariant.dirSize]
          omega
        have notNegative : ¬ ds.dirPosition < 0 := by omega
        simp only [TebakoDs.readdir, if_neg notNegative, if_pos past, if_neg inside]
        exact ⟨rfl, descriptor, ⟨ds, Std.ExtTreeMap.getElem?_insert_self, rfl, rfl, invariant,
          nonempty⟩, nonneg⟩
  | telldir =>
      simp only [dirStep, DsTable.telldir, held, plainStep]
      exact ⟨trivial, descriptor, ⟨ds, held, rfl, rfl, invariant, nonempty⟩, nonneg⟩
  | seekdir pos =>
      have range := pos.toInt_lt
      simp only [dirStep, DsTable.seekdir, held, plainStep]
      refine ⟨rfl, descriptor, ⟨_, Std.ExtTreeMap.getElem?_insert_self, rfl, rfl, ?_, nonempty⟩,
        reads⟩
      exact ⟨invariant.filled, invariant.startNonneg, invariant.startSmall, invariant.dirSize, range⟩
  | close => cases reads

theorem OpensStream.tracks (opens : OpensStream listing ino dirp vfd memfsTable start)
    (reads : ReadsListing listing ino memfsTable) (opened : vfd ∈ start.fdTable) :
    Tracks listing ino dirp vfd start 0 := by
  obtain ⟨fd, held⟩ := Option.isSome_iff_exists.mp
    (Std.ExtTreeMap.mem_iff_isSome_getElem?.mp opened)
  obtain ⟨ds, stream, same, position, invariant, nonempty⟩ := opens.stream (fun _ => reads.holds)
  exact ⟨⟨fd, held, opens.inode fd held⟩, ⟨ds, stream, same, position, invariant, nonempty⟩,
    Int.le_refl 0⟩

theorem plainStep_scan (tables : List MemfsTable) (position : Nat)
    (rest : position + tables.length = listing.entries.length) :
    Machine.answers (plainStep listing) (tables.map .readdir) position =
      (List.range' position tables.length).map
        (fun offset => DirAnswer.entry 0 (some (listing.dirent offset))) := by
  induction tables generalizing position with
  | nil => rfl
  | cons table tables ih =>
      simp only [List.length_cons] at rest
      have inside : (position : Int) < listing.entries.length := by omega
      have next := ih (position + 1) (by omega)
      simp only [List.map_cons, Machine.answers, plainStep, if_pos inside, Int.toNat_natCast,
        List.length_cons, List.range'_succ, List.cons.injEq, true_and]
      exact_mod_cast next

/-- The cached stream answers like a bare position in the directory; a scan
from the start lists every entry once, in order. -/
theorem stream_refines_position (opens : OpensStream listing ino dirp vfd memfsTable start)
    (reads : ReadsListing listing ino memfsTable) (opened : vfd ∈ start.fdTable)
    (few : listing.entries.length < 2 ^ 31) :
    (∀ ops : List DirOp, (∀ op ∈ ops, op.Reads listing ino) →
      Machine.answers (dirStep dirp vfd) ops start =
        Machine.answers (plainStep listing) ops 0) ∧
    ∀ tables : List MemfsTable, (∀ table ∈ tables, ReadsListing listing ino table) →
      tables.length = listing.entries.length →
      Machine.answers (dirStep dirp vfd) (tables.map .readdir) start =
        (List.range listing.entries.length).map
          (fun offset => .entry 0 (some (listing.dirent offset))) := by
  have simulates : Machine.Simulates (dirStep dirp vfd) (plainStep listing)
      (DirOp.Reads listing ino) (Tracks listing ino dirp vfd) := {
    answer := fun state position op tracks reads => (dirStep_tracks few tracks reads).1
    next := fun state position op tracks reads => (dirStep_tracks few tracks reads).2 }
  have initial := opens.tracks reads opened
  refine ⟨fun ops permitted => simulates.answers_eq permitted initial, ?_⟩
  intro tables readable length
  have permitted : ∀ op ∈ tables.map DirOp.readdir, op.Reads listing ino := by
    intro op member
    obtain ⟨table, present, rfl⟩ := List.mem_map.mp member
    exact readable table present
  rw [simulates.answers_eq permitted initial, ← length, List.range_eq_range']
  exact plainStep_scan tables 0 (by omega)

theorem two_entries_scanned :
    Machine.answers (dirStep 1 3)
        [.readdir (directoryImages [['a'], ['b']]), .readdir (directoryImages [['a'], ['b']])]
        (openedDirectory [['a'], ['b']]) =
      (List.range 2).map
        (fun offset => .entry 0 (some ((directoryListing [['a'], ['b']]).dirent offset))) := by
  have reads : ReadsListing (directoryListing [['a'], ['b']]) 0 (directoryImages [['a'], ['b']]) :=
    ⟨_, directoryImages_getElem? _, directoryImage_readable _⟩
  refine (stream_refines_position (openedDirectory_opens _) reads (by decide +kernel)
    (by decide)).2 [directoryImages [['a'], ['b']], directoryImages [['a'], ['b']]] ?_ rfl
  intro table member
  simp only [List.mem_cons, List.not_mem_nil, or_false, or_self] at member
  exact member ▸ reads

end Tebako
