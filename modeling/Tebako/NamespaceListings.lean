import Tebako.DirStreamRuns
import Tebako.Fstatat
import Tebako.NamespaceReads
import Tebako.Ownership

namespace Tebako

open Data Data.Loop Data.LexicalPath Data.LinkTree

/-! Opening a directory by its place in the tree, and what it is listed with.

A listing shows what the image has in the directory. Every entry can be looked
up from the open directory, unless something is mounted at its name, and is then
what the listing shows; and what can be looked up so is listed. -/

variable {w : World} {memfs : Memfs} {index : UInt32} {pi child : InodeView} {st : FileStat} {name : Str}

/-- A name that an entry of a directory can have, and that fits in a `dirent`. -/
structure EntryName (name : Str) : Prop where
  plain : Plain name
  clean : '/' ∉ name
  noNul : Char.ofNat 0 ∉ name
  fits : name.length ≤ tebakoPathLength

/-- What dwarfs promises of a directory: it is listed with the entries that it has. -/
structure ListedAs (memfs : Memfs) (pi : InodeView) (listing : DirListing) : Prop where
  there : memfs.find (memfs.reported pi) = some pi
  readable : listing.ReadableIn memfs (memfs.reported pi)
  few : listing.entries.length < 2 ^ 31
  named : ∀ {name child}, (child, name) ∈ listing.entries → Plain name → EntryName name
  entries : ∀ {name child}, EntryName name →
    ((child, name) ∈ listing.entries ↔ memfs.findChild (memfs.reported pi) (cStr name) = some child)

/-! ## Looking up one entry -/

theorem entryName_components (named : EntryName name) : (cStr name).components = [cStr name] := by
  have split : segments name = [name] ++ if false then [[]] else [] := List.splitOn_eq_singleton named.clean
  have single : ∀ other ∈ [name], other ≠ [] ∧ '/' ∉ other := by
    intro other member
    obtain rfl := List.mem_singleton.mp member
    exact ⟨named.plain.nonempty, named.clean⟩
  have listed := components_of_segments single split
  rw [CString.components, cStr_chars_of_noNul named.noNul, listed]
  rfl

/-- From the directory the name is looked up in the image, and no link is followed. -/
theorem returns_entry {found : Except Errno Lookup} (there : memfs.find (memfs.reported pi) = some pi)
    (stat : memfs.getattr pi = .ok st) (dir : st.isDir = true) (named : EntryName name)
    (free : w.mountTable[(memfs.reported pi, name)]? = none)
    (entry : found = .error .ENOENT ∧ memfs.findChild (memfs.reported pi) (cStr name) = none ∨
      ∃ child after, found = .ok (.inode after) ∧ memfs.getattr child = .ok after ∧
        memfs.findChild (memfs.reported pi) (cStr name) = some child) :
    Returns (findBody w false) (.start memfs (memfs.reported pi) (cStr name)) found := by
  have chars := cStr_chars_of_noNul named.noNul
  have present : ¬ (cStr name).chars = [] := by
    rw [chars]
    exact named.plain.nonempty
  have free : w.mountTable[(memfs.reported pi, (cStr name).chars)]? = none := by rw [chars, free]
  have passed := @processInode_file false memfs pi st (cStr name).components stat (isLnk_of_isDir dir)
  have entered : findBody w false (.start memfs (memfs.reported pi) (cStr name)) =
      .next (.walk memfs pi st (cStr name).components) := findBody_of_move (.entered there passed)
  rw [returns_iff_of_next entered, entryName_components named]
  rcases entry with ⟨rfl, absent⟩ | ⟨child, after, rfl, attributes, held⟩
  · exact returns_of_halt (by simp only [findBody, present, free, absent, ↓reduceIte])
  · obtain ⟨left, last, done⟩ := @processInode_last memfs child after (cStr name) attributes
    have moved : findBody w false (.walk memfs pi st [cStr name]) = .next (.walk memfs child after left.tail) :=
      findBody_of_move (.child present free held last)
    rw [returns_iff_of_next moved, done]
    exact returns_of_halt rfl

variable {host : HostFiles} {hostFstatat : Int → CString → UInt32 → Except Errno FileStat} {table : FdTable} {vfd : Int}

/-- The descriptor is one of a directory that may be searched. -/
structure OpenDirectory (w : World) (index : UInt32) (memfs : Memfs) (pi : InodeView) (st : FileStat) (table : FdTable)
    (vfd : Int) : Prop where
  held : w.memfsTable[index]? = some memfs
  stat : memfs.getattr pi = .ok st
  dir : st.isDir = true
  searched : st.mode &&& 0o100 ≠ 0
  numbered : pi.inodeNum < 2 ^ 31
  opened : table.fstat vfd = some st
  notCwd : vfd ≠ atFdcwd

theorem OpenDirectory.fstatat {found : Except Errno Lookup} (opened : OpenDirectory w index memfs pi st table vfd)
    (assembled : w.Assembled) (there : memfs.find (memfs.reported pi) = some pi) (named : EntryName name)
    (returned : Returns (findBody w false) (.start memfs (memfs.reported pi) (cStr name)) found)
    (inside : ∀ lnk st, found ≠ .ok (.linkAbsolute lnk st) ∧ found ≠ .ok (.linkOutside lnk st)) :
    ∃ enough, ∀ fuel ≥ enough,
      tebakoFstatat w host hostFstatat fuel vfd (cStr name) atSymlinkNofollow table = some found := by
  have same : followAbs (w.on host) (findInodeAbs (w.on host) 0) false found = some found := by
    rcases found with errno | (seen | ⟨lnk, seen⟩ | ⟨lnk, seen⟩ | ⟨lnk, seen⟩)
    · rfl
    · rfl
    · rfl
    · exact absurd rfl (inside lnk seen).1
    · exact absurd rfl (inside lnk seen).2
  obtain ⟨enough, ran⟩ := answers_start_iff.mp (⟨_, returned, 0, same⟩ :
    Answers (w.on host) false (.start memfs (memfs.reported pi) (cStr name)) found)
  have number : st.ino.toUInt32 = memfs.reported pi := by
    rw [Memfs.getattr_ino opened.stat, UInt32.toUInt32_toUInt64]
  have relative : ¬ (isAbsolute (cStr name).chars = true ∨ vfd = atFdcwd) := by
    simp [cStr_chars_of_noNul named.noNul, isAbsolute_of_clean named.clean, opened.notCwd]
  have directory : ¬ st.isDir = false := by simp [opened.dir]
  have stays : decide (atSymlinkNofollow &&& atSymlinkNofollow = 0) = false := by decide
  have noRead : xOk &&& rOk = 0 := by decide
  have noWrite : xOk &&& wOk = 0 := by decide
  have access : memfs.inodeAccess (memfs.reported pi) xOk = .ok () := by
    simp [Memfs.inodeAccess, there, opened.stat, Except.bind, Memfs.iAccess, noRead, noWrite, opened.searched]
  have sameImages : (w.on host).memfsTable = w.memfsTable := rfl
  refine ⟨enough, fun fuel more => ?_⟩
  have looked : dwarfsInodeRelativeStat (w.on host) fuel st.ino.toUInt32 (cStr name) false = some found := by
    have image := @inodeMemfsCall_of_node w memfs index pi st Memfs (fun memfs _ => .ok memfs) assembled
      opened.held opened.stat opened.numbered
    simp only [dwarfsInodeRelativeStat, sameImages, image]
    rw [number]
    exact findInodeAbs_mono more ran
  have searchable := @inodeMemfsCall_of_node w memfs index pi st Unit
    (fun memfs inode => memfs.inodeAccess inode xOk) assembled opened.held opened.stat opened.numbered
  simp only [tebakoFstatat, if_neg relative, FdTable.fstatat, opened.opened, if_neg directory, sameImages, searchable,
    access, stays, looked, Option.map_some, Option.bind_some]
  rcases found with errno | (seen | ⟨lnk, seen⟩ | ⟨lnk, seen⟩ | ⟨lnk, seen⟩)
  · rfl
  · rfl
  · rfl
  · rfl
  · exact absurd rfl (inside lnk seen).2

/-! ## Reading the directory -/

variable {listing : DirListing} {p : Process} {into : StreamMemory} {given path : CString} {hosted : Bool} {handle : Int}

theorem ListedAs.reads (listed : ListedAs memfs pi listing) (assembled : w.Assembled)
    (held : w.memfsTable[index]? = some memfs) (stat : memfs.getattr pi = .ok st) (numbered : pi.inodeNum < 2 ^ 31) :
    ReadsListing listing st.ino w.memfsTable := by
  obtain ⟨here, _⟩ := (assembled.images held).2 pi numbered
  have number : st.ino.toUInt32 = memfs.reported pi := by
    rw [Memfs.getattr_ino stat, UInt32.toUInt32_toUInt64]
  refine ⟨memfs, ?_, ?_⟩
  · rw [number, here]
    exact held
  · rw [number]
    exact listed.readable

theorem enter_cases (table : FdTable) :
    (p.enter table vfd).1 = vfd ∧ (p.enter table vfd).2.2.fdTable = table ∧
      (p.enter table vfd).2.2.dsTable = p.dsTable := by
  simp only [Process.enter]
  split
  · exact ⟨rfl, rfl, rfl⟩
  · exact ⟨rfl, rfl, rfl⟩

/-- The path is opened as a directory, and a stream on it. -/
theorem World.LeadsTo.opendir (reached : w.LeadsTo given path (.inode index pi) st) (dir : st.isDir = true)
    (held : w.memfsTable[index]? = some memfs) (stat : memfs.getattr pi = .ok st) (numbered : pi.inodeNum < 2 ^ 31)
    (listed : ListedAs memfs pi listing) (number : p.host.dupStdin.1 = vfd) (taken : 0 ≤ vfd)
    (address : into.address ≠ 0) :
    ∃ enough calls after, (∀ fuel ≥ enough, p.tebakoOpendir w fuel (some given) hosted handle into =
        some (into.address, calls, after)) ∧
      after.fdTable.fstat vfd = some st ∧
      Tracks listing st.ino into.address vfd ⟨after.dsTable, after.fdTable⟩ 0 := by
  obtain ⟨enough, ran⟩ := reached.dwarfsStat
  have plain : OpensPlainly oDirectory st := ⟨by decide, by decide, fun _ => dir⟩
  have free : vfd ≠ dwarfsIoError := by
    unfold dwarfsIoError
    omega
  obtain ⟨table, inserted⟩ : ∃ table : FdTable, Std.ExtTreeMap.insert p.fdTable vfd ⟨st, 0, 0, vfd⟩ = table :=
    ⟨_, rfl⟩
  have opened : table[vfd]? = some ⟨st, 0, 0, vfd⟩ := by
    rw [← inserted]
    exact Std.ExtTreeMap.getElem?_insert_self
  obtain ⟨sameNumber, sameTable, sameStreams⟩ := @enter_cases vfd p table
  have reads := listed.reads reached.assembled held stat numbered
  obtain ⟨window, loaded, result⟩ := @loadCache_succeeds listing st.ino w.memfsTable
    (TebakoDs.make vfd into.memory) table ⟨st, 0, 0, vfd⟩ 0 true opened rfl reads (Int.le_refl 0) (by decide)
  have stream := @opendir_of_load w.memfsTable p.dsTable table vfd into.address into.memory _ result
  obtain ⟨entered, same⟩ : ∃ entered, (p.enter table vfd).2.2 = entered := ⟨_, rfl⟩
  rw [same] at sameTable sameStreams
  refine ⟨enough, (p.enter table vfd).2.1, (entered.openStream w vfd into).2, fun fuel more => ?_, ?_, ?_⟩
  · have follows : decide (oDirectory &&& oNofollow = 0) = true := by decide
    have there : ¬ vfd < 0 := by omega
    have result : (entered.openStream w vfd into).1 = into.address := by
      simp only [Process.openStream, sameTable, sameStreams, stream]
    simp only [Process.tebakoOpendir, reached.known, Process.openDir, FdTable.open, follows, ran fuel more,
      Option.map_some, number, openFound_of_plain plain free, Option.isSome_none, Bool.false_eq_true, ↓reduceIte,
      inserted, sameNumber, if_neg there, same, result]
  · simp only [Process.openStream, sameTable, FdTable.fstat, opened, Option.map_some]
  · have opens : OpensStream listing st.ino into.address vfd w.memfsTable
        ⟨(entered.openStream w vfd into).2.dsTable, (entered.openStream w vfd into).2.fdTable⟩ := by
      refine ⟨?_, reads.shows, ⟨p.dsTable, into.memory, window.dirSize, ?_⟩, address⟩
      · intro fd found
        simp only [Process.openStream, sameTable] at found
        obtain rfl := Option.some.inj (opened.symm.trans found)
        rfl
      · simp only [Process.openStream, sameTable, sameStreams, stream]
    refine opens.tracks reads ?_
    simp only [Process.openStream, sameTable]
    exact Std.ExtTreeMap.mem_iff_isSome_getElem?.mpr (Option.isSome_iff_exists.mpr ⟨_, opened⟩)

/-- What the listing shows of an entry is what its attributes are. -/
structure TebakoDirent.Shows (entry : TebakoDirent) (st : FileStat) : Prop where
  number : entry.dIno = some st.ino
  kind : entry.dType = some (direntType st.mode)

theorem handed_listed {ops : List DirOp} {position : Int} {answer : DirAnswer} {entry : TebakoDirent}
    (member : answer ∈ Machine.answers (plainStep listing) ops position) (handed : answer.handed = some (some entry)) :
    ∃ position, listing.dirent position = some entry := by
  induction ops generalizing position with
  | nil => cases member
  | cons op rest ih =>
      rcases List.mem_cons.mp member with rfl | later
      · cases op with
        | readdir memfsTable =>
            simp only [plainStep] at handed
            split at handed
            · exact ⟨_, Option.some.inj handed⟩
            · cases handed
        | telldir => cases handed
        | seekdir pos => cases handed
        | close => cases handed
      · exact ih later

theorem ListedAs.shows {position : Nat} {entry : TebakoDirent} (listed : ListedAs memfs pi listing)
    (there : listing.dirent position = some entry) (plain : Plain entry.dName.chars) :
    ∃ child found, EntryName entry.dName.chars ∧ entry.Shows found ∧ memfs.getattr child = .ok found ∧
      memfs.findChild (memfs.reported pi) entry.dName = some child := by
  obtain ⟨⟨child, name⟩, placed, rfl⟩ := Option.map_eq_some_iff.mp there
  have member := List.mem_of_getElem? placed
  have attributes := listed.readable.getattr _ member
  have root := listed.readable.root
  have named : EntryName name := by
    refine listed.named member ⟨?_, ?_, ?_⟩
    · intro empty
      exact plain.nonempty (by rw [empty]; rfl)
    · intro same
      exact plain.notDot (by rw [same]; rfl)
    · intro same
      exact plain.notDotDot (by rw [same]; rfl)
  have chars := tebakoPathAssign_chars_of_fits named.noNul named.fits
  have whole : tebakoPathAssign name = cStr name :=
    CString.ext (chars.trans (cStr_chars_of_noNul named.noNul).symm)
  refine ⟨child, ⟨(memfs.reported child).toUInt64, (listing.attr child).mode, (listing.attr child).size⟩, ?_, ?_, ?_, ?_⟩
  · rw [chars]
    exact named
  · exact ⟨by simp only [Memfs.reported, root], rfl⟩
  · simp only [Memfs.getattr, attributes, Except.map]
  · rw [whole]
    exact (listed.entries named).mp member

/-- A directory that is opened by a path is listed with what can be looked up in
it: each entry that is handed out has the number and the type that `fstatat`
gives for its name, and what is not listed is not found, but for mount points. -/
theorem listing_in_namespace (w : World) (given path : CString) (index : UInt32) (memfs : Memfs) (pi : InodeView)
    (st : FileStat) (reached : w.LeadsTo given path (.inode index pi) st) (dir : st.isDir = true)
    (searched : st.mode &&& 0o100 ≠ 0) (held : w.memfsTable[index]? = some memfs) (numbered : pi.inodeNum < 2 ^ 31)
    (listing : DirListing) (listed : ListedAs memfs pi listing) (p : Process) (vfd : Int)
    (number : p.host.dupStdin.1 = vfd) (taken : 0 ≤ vfd) (hosted : Bool) (handle : Int) (into : StreamMemory)
    (address : into.address ≠ 0) (host : HostFiles)
    (hostFstatat : Int → CString → UInt32 → Except Errno FileStat) :
    ∃ enough calls after, (∀ fuel ≥ enough, p.tebakoOpendir w fuel (some given) hosted handle into =
        some (into.address, calls, after)) ∧
      (∀ ops : List DirOp, (∀ op ∈ ops, op.Reads listing st.ino) →
        ∀ answer ∈ Machine.answers (dirStep into.address vfd) ops ⟨after.dsTable, after.fdTable⟩,
        ∀ entry, answer.handed = some (some entry) → Plain entry.dName.chars →
          w.mountTable[(memfs.reported pi, entry.dName.chars)]? = none →
          ∃ found, entry.Shows found ∧ ∃ enough, ∀ fuel ≥ enough,
            tebakoFstatat w host hostFstatat fuel vfd entry.dName atSymlinkNofollow after.fdTable =
              some (.ok (.inode found))) ∧
      ∀ name, EntryName name → w.mountTable[(memfs.reported pi, name)]? = none →
        (∀ child, (child, name) ∉ listing.entries) → ∃ enough, ∀ fuel ≥ enough,
          tebakoFstatat w host hostFstatat fuel vfd (cStr name) atSymlinkNofollow after.fdTable =
            some (.error .ENOENT) := by
  obtain ⟨other, sameImage, stat⟩ := node_attributes reached.stat
  obtain rfl := Option.some.inj (held.symm.trans sameImage)
  obtain ⟨enough, calls, after, opens, opened, tracks⟩ := @World.LeadsTo.opendir w memfs index pi st vfd listing p into
    given path hosted handle reached dir held stat numbered listed number taken address
  have directory : OpenDirectory w index memfs pi st after.fdTable vfd :=
    { held := held, stat := stat, dir := dir, searched := searched, numbered := numbered, opened := opened
      notCwd := by unfold atFdcwd; omega }
  have simulates : Machine.Simulates (dirStep into.address vfd) (plainStep listing) (DirOp.Reads listing st.ino)
      (Tracks listing st.ino into.address vfd) :=
    { answer := fun state position op tracks reads => (dirStep_tracks listed.few tracks reads).1
      next := fun state position op tracks reads => (dirStep_tracks listed.few tracks reads).2 }
  refine ⟨enough, calls, after, opens, ?_, ?_⟩
  · intro ops reads answer member entry handed plain free
    rw [simulates.answers_eq reads tracks] at member
    obtain ⟨position, placed⟩ := handed_listed member handed
    obtain ⟨child, found, named, shows, attributes, there⟩ := listed.shows placed plain
    refine ⟨found, shows, ?_⟩
    have spelled : cStr entry.dName.chars = entry.dName := cStr_chars entry.dName
    have returned := @returns_entry w memfs pi st entry.dName.chars (.ok (.inode found)) listed.there stat dir named free
      (.inr ⟨child, found, rfl, attributes, by rw [spelled, there]⟩)
    have looked := @OpenDirectory.fstatat w memfs index pi st entry.dName.chars host hostFstatat after.fdTable vfd _
      directory reached.assembled listed.there named returned (by simp)
    rw [spelled] at looked
    exact looked
  · intro name named free missing
    have absent : memfs.findChild (memfs.reported pi) (cStr name) = none := by
      cases there : memfs.findChild (memfs.reported pi) (cStr name) with
      | none => rfl
      | some child => exact absurd ((listed.entries named).mpr there) (missing child)
    have returned := @returns_entry w memfs pi st name (.error .ENOENT) listed.there stat dir named free
      (.inl ⟨rfl, absent⟩)
    exact directory.fstatat reached.assembled listed.there named returned (by simp)

/-! ## The root directory of an image that is mounted in a directory -/

def storedDirectory : CString := belowMountPoint ['d', '/', 'm']

theorem storedWorld_leads_directory :
    storedWorld.LeadsTo storedDirectory storedDirectory (.inode 1 ⟨0⟩) ⟨2 ^ 31, 0o040755, 0⟩ where
  assembled := storedWorld_assembled
  known := by decide +kernel
  below := by decide +kernel
  normal := by decide +kernel
  stat := by rfl
  leads := by
    have path : (storedDirectory.drop (tebakoMountPointLength + 1)).chars = ['d', '/', 'm'] := by
      decide +kernel
    obtain ⟨directory, mount, _⟩ := storedWorld_child
    refine ⟨outerImage, ⟨0⟩, by rfl, by rfl, ?_, ?_⟩
    · refine forall_reached_of_next (by rfl) ⟨trivial, trivial⟩ ?_
      refine forall_reached_of_next (by rfl) (storedWorld_next (by decide +kernel)) ?_
      refine forall_reached_of_next (by rfl) (storedWorld_next (by decide +kernel)) ?_
      refine forall_reached_of_next (by rfl) ⟨trivial, trivial⟩ ?_
      exact forall_reached_of_halt (by rfl) (storedWorld_next (by decide +kernel))
    · rw [path]
      refine ⟨0, .down (by decide) directory (by decide +kernel) ?_⟩
      exact .down (by decide) mount (by decide +kernel) (.here _)

def storedListing : DirListing where
  root := (fsInoFromFsAndIno 1 0).toUInt32
  entries := [(⟨1⟩, ['f'])]
  attr view := if view.inodeNum = 0 then ⟨0o040755, 0⟩ else ⟨0o100644, (storedBytes view.inodeNum).length⟩

theorem storedImage_readable : storedListing.ReadableIn storedImage (storedImage.reported ⟨0⟩) where
  root := rfl
  dirsize view dir found opens := by
    have root : storedImage.find (storedImage.reported ⟨0⟩) = some ⟨0⟩ := by rfl
    obtain rfl := Option.some.inj (root.symm.trans found)
    cases opens
    rfl
  readdir view dir offset entry found opens read := by
    have root : storedImage.find (storedImage.reported ⟨0⟩) = some ⟨0⟩ := by rfl
    obtain rfl := Option.some.inj (root.symm.trans found)
    cases opens
    exact read
  attr view attr got := by
    have stored : storedImage.fs.getattr view = ((Dwarfs.ofEntries innerEntries).getattr view).map
        fun attr => { attr with size := (storedBytes view.inodeNum).length } := rfl
    simp only [stored, Dwarfs.ofEntries, innerEntries] at got
    by_cases root : view.inodeNum = 0
    · simp only [root, ↓reduceIte, Except.map, Except.ok.injEq] at got
      simp only [← got, storedListing, root, ↓reduceIte]
      rfl
    · simp only [root, ↓reduceIte] at got
      split at got
      · cases got
      · rename_i entry listed
        obtain rfl := List.mem_singleton.mp (List.mem_of_getElem? listed)
        simp only [Except.map, Except.ok.injEq] at got
        simp only [← got, storedListing, root, ↓reduceIte]
  opens := by
    refine ⟨⟨0⟩, ⟨0⟩, by rfl, by rfl, fun offset below => ?_⟩
    change (storedListing.entries[offset]?).isSome
    simp only [List.getElem?_eq_getElem below, Option.isSome_some]
  getattr entry member := by
    obtain rfl := List.mem_singleton.mp member
    rfl

theorem storedListing_listed : ListedAs storedImage ⟨0⟩ storedListing where
  there := by rfl
  few := by decide
  named member _ := by
    simp only [storedListing, List.mem_singleton, Prod.mk.injEq] at member
    obtain ⟨_, rfl⟩ := member
    exact ⟨⟨by decide, by decide, by decide⟩, by decide, by decide, by decide⟩
  readable := storedImage_readable
  entries {name child} named := by
    have chars := cStr_chars_of_noNul named.noNul
    constructor
    · intro member
      simp only [storedListing, List.mem_singleton, Prod.mk.injEq] at member
      obtain ⟨rfl, rfl⟩ := member
      rfl
    · intro found
      have found : innerImage.findChild (innerImage.reported ⟨0⟩) (cStr name) = some child := found
      obtain ⟨position, entry, listed, _, same, rfl⟩ := @entry_of_findChild innerImage innerEntries _ _ _ rfl found
      obtain ⟨bound, _⟩ := List.getElem?_eq_some_iff.mp listed
      obtain rfl : position = 0 := by
        simp only [innerEntries, List.length_singleton] at bound
        omega
      cases listed
      have spelled : name = ['f'] := by
        rw [← chars, ← same]
        rfl
      rw [spelled]
      exact List.mem_singleton.mpr rfl

/-- No stream has been opened before. -/
def storedMemory : StreamMemory := ⟨7, .replicate _ blankDirent⟩

theorem stored_directory_listed :
    ∃ enough calls after, (∀ fuel ≥ enough, freshProcess.tebakoOpendir storedWorld fuel (some storedDirectory) false 0
        storedMemory = some (7, calls, after)) ∧
      (∀ answer ∈ Machine.answers (dirStep 7 1) [.readdir storedWorld.memfsTable] ⟨after.dsTable, after.fdTable⟩,
        ∀ entry, answer.handed = some (some entry) → entry.dName = cStr ['f'] →
          ∃ found, entry.Shows found ∧ ∃ enough, ∀ fuel ≥ enough,
            tebakoFstatat storedWorld linkHost (fun _ _ _ => .error .EBADF) fuel 1 entry.dName atSymlinkNofollow
              after.fdTable = some (.ok (.inode found))) ∧
      ∃ enough, ∀ fuel ≥ enough,
        tebakoFstatat storedWorld linkHost (fun _ _ _ => .error .EBADF) fuel 1 (cStr ['g']) atSymlinkNofollow
          after.fdTable = some (.error .ENOENT) := by
  obtain ⟨enough, calls, after, opens, lists, missing⟩ := listing_in_namespace storedWorld storedDirectory
    storedDirectory 1 storedImage ⟨0⟩ ⟨2 ^ 31, 0o040755, 0⟩ storedWorld_leads_directory (by decide) (by decide) (by rfl)
    (by decide) storedListing storedListing_listed freshProcess 1 (by decide +kernel) (by decide) false 0 storedMemory
    (by decide) linkHost fun _ _ _ => .error .EBADF
  refine ⟨enough, calls, after, opens, ?_, ?_⟩
  · intro answer member entry handed named
    have reads : ReadsListing storedListing (2 ^ 31) storedWorld.memfsTable :=
      ⟨storedImage, by rfl, storedImage_readable⟩
    refine lists [.readdir storedWorld.memfsTable] ?_ answer member entry handed ?_ ?_
    · intro op here
      obtain rfl := List.mem_singleton.mp here
      exact reads
    · rw [named]
      exact ⟨by decide, by decide, by decide⟩
    · rw [named]
      rfl
  · refine missing ['g'] ⟨⟨by decide, by decide, by decide⟩, by decide, by decide, by decide⟩ (by rfl) ?_
    intro child member
    simp [storedListing] at member

end Tebako
