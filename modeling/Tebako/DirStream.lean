import Tebako.Dirent

namespace Tebako

open Data

/-! The operations of a directory stream, one at a time. -/

/-- The entries of the window, each of them as `holds` asks for its offset. -/
structure Filled (holds : Int → TebakoDirent → Prop) (cacheStart : Int) (into : DirCache) :
    Prop where
  within : into.cacheSize ≤ tebakoDirCacheSize
  entries : ∀ index < into.cacheSize, ∃ entry, into.cache[index]? = some entry ∧
    holds (cacheStart + index) entry

theorem filled_of_empty {holds : Int → TebakoDirent → Prop} {cacheStart : Int} {into : DirCache}
    (empty : into.cacheSize = 0) : Filled holds cacheStart into where
  within := by omega
  entries index below := by omega

section Fill

variable {memfs : Memfs} {dir : DirView} {cacheStart : Int} {holds : Int → TebakoDirent → Prop}

theorem Filled.store {into : DirCache} {entry : TebakoDirent} (filled : Filled holds cacheStart into)
    (room : into.cacheSize < tebakoDirCacheSize) (here : holds (cacheStart + into.cacheSize) entry) :
    Filled holds cacheStart { into with
      cache := into.cache.setIfInBounds into.cacheSize entry
      cacheSize := into.cacheSize + 1 } where
  within := room
  entries index below := by
    change index < into.cacheSize + 1 at below
    by_cases last : index = into.cacheSize
    · subst last
      exact ⟨entry, by simp [room], here⟩
    · obtain ⟨before, stored, right⟩ := filled.entries index (by omega)
      refine ⟨before, ?_, right⟩
      rw [Vector.getElem?_setIfInBounds_ne (Ne.symm last)]
      exact stored

theorem fillCache_grows (room : Nat) (into : DirCache) (ret : Int) :
    (memfs.fillCache dir cacheStart room into ret).2.dirSize = into.dirSize ∧
      into.cacheSize ≤ (memfs.fillCache dir cacheStart room into ret).2.cacheSize := by
  induction room generalizing into ret with
  | zero => exact ⟨rfl, Nat.le_refl _⟩
  | succ room ih =>
      simp only [Memfs.fillCache]
      split
      · cases read : memfs.fs.readdir dir (sizeT (cacheStart + into.cacheSize)) with
        | none => exact ⟨rfl, Nat.le_refl _⟩
        | some entry =>
            obtain ⟨size, grown⟩ := ih
              { into with
                cache := into.cache.setIfInBounds into.cacheSize
                  (memfs.dirent (cacheStart + into.cacheSize) entry)
                cacheSize := into.cacheSize + 1 } _
            exact ⟨size, Nat.le_trans (Nat.le_succ _) grown⟩
      · exact ⟨rfl, Nat.le_refl _⟩

theorem fillCache_filled (nonneg : 0 ≤ cacheStart) (small : cacheStart < 2 ^ 31)
    (reads : ∀ offset entry, memfs.fs.readdir dir offset = some entry →
      holds offset (memfs.dirent offset entry))
    {room : Nat} {into : DirCache} {ret : Int} (fits : into.cacheSize + room ≤ tebakoDirCacheSize)
    (filled : Filled holds cacheStart into) :
    Filled holds cacheStart (memfs.fillCache dir cacheStart room into ret).2 := by
  induction room generalizing into ret with
  | zero => exact filled
  | succ room ih =>
      simp only [Memfs.fillCache]
      split
      · cases read : memfs.fs.readdir dir (sizeT (cacheStart + into.cacheSize)) with
        | none => exact filled
        | some entry =>
            have free : into.cacheSize < tebakoDirCacheSize := by omega
            have offset : (sizeT (cacheStart + into.cacheSize) : Int) =
                cacheStart + into.cacheSize := by
              apply sizeT_cast
              · omega
              · unfold tebakoDirCacheSize at free
                omega
            have here := reads _ entry read
            rw [offset] at here
            exact ih (by simp only; omega) (filled.store free here)
      · exact filled

theorem fillCache_nonempty (nonneg : 0 ≤ cacheStart) (small : cacheStart < 2 ^ 31)
    {room : Nat} {into : DirCache} {ret : Int} (fresh : into.cacheSize = 0)
    (inside : cacheStart < into.dirSize) (failing : ret ≠ 0)
    (success : (memfs.fillCache dir cacheStart (room + 1) into ret).1 = 0) :
    0 < (memfs.fillCache dir cacheStart (room + 1) into ret).2.cacheSize := by
  have start : (sizeT (cacheStart + into.cacheSize) : Int) = cacheStart := by
    rw [fresh, sizeT_cast] <;> omega
  have more : sizeT (cacheStart + into.cacheSize) < into.dirSize := by omega
  simp only [Memfs.fillCache, if_pos more] at success ⊢
  cases read : memfs.fs.readdir dir (sizeT (cacheStart + into.cacheSize)) with
  | none =>
      simp only [read] at success
      exact absurd success failing
  | some entry =>
      apply Nat.lt_of_lt_of_le (Nat.succ_pos into.cacheSize)
      exact (@fillCache_grows memfs dir cacheStart room
        { into with
          cache := into.cache.setIfInBounds into.cacheSize
            (memfs.dirent (cacheStart + into.cacheSize) entry)
          cacheSize := into.cacheSize + 1 } _).2

end Fill

/-! ## The directory that a stream reads -/

/-- A directory of a mounted image: its entries in order, and the offset and
the attributes that its inodes are reported with. -/
structure DirListing where
  root : UInt32
  entries : List (InodeView × Str)
  attr : InodeView → InodeAttr

namespace DirListing

variable (listing : DirListing)

def dirent (position : Nat) : Option TebakoDirent :=
  listing.entries[position]?.map fun entry =>
    { dIno := some (entry.1.inodeNum + listing.root).toUInt64
      dOff := position
      dType := some (direntType (listing.attr entry.1).mode)
      dName := tebakoPathAssign entry.2 }

/-- The directory's entry at a position. Its number and type are missing where
the attributes could not be read. -/
def Describes (position : Int) (entry : TebakoDirent) : Prop :=
  ∃ full, listing.dirent position.toNat = some full ∧
    (entry = full ∨ entry = { full with dIno := none, dType := none })

def Holds (position : Int) (entry : TebakoDirent) : Prop :=
  listing.dirent position.toNat = some entry

/-- An image that shows this directory, though any of its answers may fail. -/
structure ShownBy (fs : Memfs) (inode : UInt32) : Prop where
  root : fs.dwarfsRootInode = listing.root
  dirsize : ∀ view dir, fs.find inode = some view → fs.fs.opendir view = some dir →
    fs.fs.dirsize dir = listing.entries.length
  readdir : ∀ view dir offset entry, fs.find inode = some view → fs.fs.opendir view = some dir →
    fs.fs.readdir dir offset = some entry → listing.entries[offset]? = some entry
  attr : ∀ view attr, fs.fs.getattr view = .ok attr → attr = listing.attr view

/-- An image in which reading this directory does not fail. -/
structure ReadableIn (fs : Memfs) (inode : UInt32) : Prop extends listing.ShownBy fs inode where
  opens : ∃ view dir, fs.find inode = some view ∧ fs.fs.opendir view = some dir ∧
    ∀ offset < listing.entries.length, (fs.fs.readdir dir offset).isSome
  getattr : ∀ entry ∈ listing.entries, fs.fs.getattr entry.1 = .ok (listing.attr entry.1)

variable {listing} {fs : Memfs} {inode : UInt32}

theorem ShownBy.describes {offset : Nat} {entry : InodeView × Str}
    (shown : listing.ShownBy fs inode) (listed : listing.entries[offset]? = some entry) :
    listing.Describes offset (fs.dirent offset entry) := by
  refine ⟨_, by simp only [dirent, Int.toNat_natCast, listed, Option.map_some]; rfl, ?_⟩
  cases read : fs.fs.getattr entry.1 with
  | error errno =>
      right
      simp [Memfs.dirent, Memfs.getattr, read, Except.map, Except.toOption]
  | ok attr =>
      left
      obtain rfl := shown.attr _ _ read
      simp [Memfs.dirent, Memfs.getattr, read, Except.map, Except.toOption, Memfs.reported,
        shown.root]

theorem ReadableIn.holds {offset : Nat} {entry : InodeView × Str}
    (readable : listing.ReadableIn fs inode) (listed : listing.entries[offset]? = some entry) :
    listing.Holds offset (fs.dirent offset entry) := by
  have read := readable.getattr entry (List.mem_of_getElem? listed)
  simp [Holds, dirent, listed, Memfs.dirent, Memfs.getattr, read, Except.map, Except.toOption,
    Memfs.reported, readable.root]

end DirListing

/-! ## One operation -/

section Operation

variable {listing : DirListing} {holds : Int → TebakoDirent → Prop}

structure LoadedWindow (listing : DirListing) (holds : Int → TebakoDirent → Prop)
    (cacheStart : Int) (into : DirCache) : Prop where
  filled : Filled holds cacheStart into
  dirSize : into.dirSize = listing.entries.length
  nonempty : cacheStart < listing.entries.length → 0 < into.cacheSize

theorem inodeReaddir_spec {fs : Memfs} {inode : UInt32} {cacheStart : Int}
    (shown : listing.ShownBy fs inode)
    (right : ∀ (offset : Nat) entry, listing.entries[offset]? = some entry →
      holds offset (fs.dirent offset entry))
    (nonneg : 0 ≤ cacheStart) (small : cacheStart < 2 ^ 31) (into : DirCache) :
    ((fs.inodeReaddir inode cacheStart tebakoDirCacheSize into).2.dirSize = into.dirSize ∨
      (fs.inodeReaddir inode cacheStart tebakoDirCacheSize into).2.dirSize =
        listing.entries.length) ∧
    ((fs.inodeReaddir inode cacheStart tebakoDirCacheSize into).1 = 0 →
      LoadedWindow listing holds cacheStart
        (fs.inodeReaddir inode cacheStart tebakoDirCacheSize into).2) := by
  simp only [Memfs.inodeReaddir]
  cases opened : (fs.find inode).bind fs.fs.opendir with
  | none => simp
  | some dir =>
      obtain ⟨view, found, opens⟩ := Option.bind_eq_some_iff.mp opened
      have size := shown.dirsize view dir found opens
      have reads : ∀ offset entry, fs.fs.readdir dir offset = some entry →
          holds offset (fs.dirent offset entry) :=
        fun offset entry read => right offset entry (shown.readdir view dir offset entry found opens read)
      have fresh : Filled holds cacheStart
          { into with dirSize := fs.fs.dirsize dir, cacheSize := 0 } := filled_of_empty rfl
      have filled := @fillCache_filled fs dir cacheStart holds nonneg small reads
        tebakoDirCacheSize _ (-1) (Nat.le_of_eq (Nat.zero_add _)) fresh
      have kept := (@fillCache_grows fs dir cacheStart tebakoDirCacheSize
        { into with dirSize := fs.fs.dirsize dir, cacheSize := 0 } (-1)).1
      have nonempty := @fillCache_nonempty fs dir cacheStart nonneg small 49
        { into with dirSize := fs.fs.dirsize dir, cacheSize := 0 } (-1) rfl
      simp only [size] at filled kept nonempty ⊢
      split
      · rename_i failed
        exact ⟨.inr kept, fun success => by omega⟩
      · exact ⟨.inr kept, fun success => ⟨filled, kept, fun inside =>
          nonempty inside (by decide) success⟩⟩

/-- The images, when each one that answers for `ino` shows the directory. -/
def ShowsListing (listing : DirListing) (ino : UInt64) (memfsTable : MemfsTable) : Prop :=
  ∀ fs, memfsTable[getFsIndex ino.toUInt32.toUInt64]? = some fs → listing.ShownBy fs ino.toUInt32

/-- The descriptor, when it has not been closed, is one for `ino`. -/
def DescribesInode (fdTable : FdTable) (vfd : Int) (ino : UInt64) : Prop :=
  ∀ fd, fdTable[vfd]? = some fd → fd.st.ino = ino

theorem fdTable_readdir_spec {fdTable : FdTable} {memfsTable : MemfsTable} {vfd : Int}
    {ino : UInt64} {cacheStart : Int} (inode : DescribesInode fdTable vfd ino)
    (shown : ShowsListing listing ino memfsTable)
    (right : ∀ fs, memfsTable[getFsIndex ino.toUInt32.toUInt64]? = some fs →
      ∀ (offset : Nat) entry, listing.entries[offset]? = some entry →
        holds offset (fs.dirent offset entry))
    (nonneg : 0 ≤ cacheStart) (small : cacheStart < 2 ^ 31) (into : DirCache) :
    ((fdTable.readdir memfsTable vfd cacheStart tebakoDirCacheSize into).2.dirSize = into.dirSize ∨
      (fdTable.readdir memfsTable vfd cacheStart tebakoDirCacheSize into).2.dirSize =
        listing.entries.length) ∧
    ((fdTable.readdir memfsTable vfd cacheStart tebakoDirCacheSize into).1 = 0 →
      LoadedWindow listing holds cacheStart
        (fdTable.readdir memfsTable vfd cacheStart tebakoDirCacheSize into).2) := by
  simp only [FdTable.readdir]
  cases held : fdTable[vfd]? with
  | none => exact ⟨.inl rfl, fun success => absurd success (show dwarfsInvalidFd ≠ 0 by decide)⟩
  | some fd =>
      simp only [inode fd held, dwarfsInodeReaddir]
      cases mounted : memfsTable[getFsIndex ino.toUInt32.toUInt64]? with
      | none => exact ⟨.inl rfl, fun success => absurd success (show dwarfsIoError ≠ 0 by decide)⟩
      | some fs => exact inodeReaddir_spec (shown fs mounted) (right fs mounted) nonneg small into

theorem loadCache_cases {ds : TebakoDs} {fdTable : FdTable} {memfsTable : MemfsTable}
    {ino : UInt64} {cacheStart : Int} (setPos : Bool)
    (inode : DescribesInode fdTable ds.vfd ino) (shown : ShowsListing listing ino memfsTable)
    (right : ∀ fs, memfsTable[getFsIndex ino.toUInt32.toUInt64]? = some fs →
      ∀ (offset : Nat) entry, listing.entries[offset]? = some entry →
        holds offset (fs.dirent offset entry))
    (nonneg : 0 ≤ cacheStart) (small : cacheStart < 2 ^ 31) :
    (∃ into, LoadedWindow listing holds cacheStart into ∧
      ds.loadCache fdTable memfsTable cacheStart setPos =
        (0, { ds with
          toDirCache := into
          dirPosition := if setPos then cacheStart else ds.dirPosition
          cacheStart := cacheStart })) ∨
    (∃ ret into, ret ≠ 0 ∧ into.cacheSize = 0 ∧
      (into.dirSize = ds.dirSize ∨ into.dirSize = listing.entries.length) ∧
      ds.loadCache fdTable memfsTable cacheStart setPos =
        (ret, { ds with toDirCache := into, dirPosition := -1 })) := by
  obtain ⟨size, loaded⟩ :=
    fdTable_readdir_spec inode shown right nonneg small ds.toDirCache
  simp only [TebakoDs.loadCache]
  cases read : fdTable.readdir memfsTable ds.vfd cacheStart tebakoDirCacheSize ds.toDirCache with
  | mk ret into =>
      rw [read] at size loaded
      by_cases success : ret = 0
      · subst success
        exact .inl ⟨into, loaded rfl, rfl⟩
      · have failed : ¬ ret = dwarfsIoContinue := success
        refine .inr ⟨ret, { into with cacheSize := 0 }, success, rfl, size, ?_⟩
        simp only [if_neg failed]

/-- What a stream keeps while it is read: a window of right entries. -/
structure StreamInvariant (listing : DirListing) (holds : Int → TebakoDirent → Prop)
    (ds : TebakoDs) : Prop where
  filled : Filled holds ds.cacheStart ds.toDirCache
  startNonneg : 0 ≤ ds.cacheStart
  startSmall : ds.cacheStart < 2 ^ 31
  dirSize : ds.dirSize = listing.entries.length
  position : ds.dirPosition < 2 ^ 63

/-- An entry handed out for a position: one of those that were loaded last, and
the right one. -/
structure HandsOut (holds : Int → TebakoDirent → Prop) (position : Int)
    (handed : TebakoDs.Handed) (after : TebakoDs) : Prop where
  notBefore : after.cacheStart ≤ position
  loaded : position - after.cacheStart < after.cacheSize
  inCache : after.cacheSize ≤ tebakoDirCacheSize
  entry : ∃ entry, handed = some entry ∧ holds position entry

/-- A read that does not find the window emptied at offset 0, and that does not
load from a position that does not fit an `int`. -/
def TebakoDs.ReadsSafely (ds : TebakoDs) : Prop :=
  0 ≤ ds.dirPosition → ds.dirPosition < ds.dirSize →
    ¬ (ds.cacheStart = 0 ∧ ds.cacheSize = 0) ∧ (ds.Misses → ds.dirPosition < 2 ^ 31)

theorem handsOut_of_window {ds : TebakoDs} (filled : Filled holds ds.cacheStart ds.toDirCache)
    (notBefore : ds.cacheStart ≤ ds.dirPosition)
    (loaded : ds.dirPosition - ds.cacheStart < ds.cacheSize) :
    HandsOut holds ds.dirPosition ds.slot ds.advance where
  notBefore := notBefore
  loaded := loaded
  inCache := filled.within
  entry := by
    obtain ⟨entry, stored, right⟩ := filled.entries (ds.dirPosition - ds.cacheStart).toNat (by omega)
    have position : ds.cacheStart + (ds.dirPosition - ds.cacheStart).toNat = ds.dirPosition := by
      omega
    rw [position] at right
    refine ⟨entry, ?_, right⟩
    rw [TebakoDs.slot, if_pos (by omega)]
    exact stored

/-- A hit is a position in the window, unless the window was emptied at 0. -/
theorem hit_in_window {ds : TebakoDs} (startNonneg : 0 ≤ ds.cacheStart)
    (startSmall : ds.cacheStart < 2 ^ 31) (within : ds.cacheSize ≤ tebakoDirCacheSize)
    (nonneg : 0 ≤ ds.dirPosition) (range : ds.dirPosition < 2 ^ 63)
    (kept : ¬ (ds.cacheStart = 0 ∧ ds.cacheSize = 0)) (hit : ¬ ds.Misses) :
    ds.cacheStart ≤ ds.dirPosition ∧ ds.dirPosition - ds.cacheStart < ds.cacheSize := by
  unfold tebakoDirCacheSize at within
  have last : (sizeT (ds.cacheStart + ds.cacheSize - 1) : Int) =
      ds.cacheStart + ds.cacheSize - 1 := by
    apply sizeT_cast <;> omega
  have position : (sizeT ds.dirPosition : Int) = ds.dirPosition := by
    apply sizeT_cast <;> omega
  unfold TebakoDs.Misses at hit
  rw [not_or] at hit
  omega

theorem readdir_keeps {ds : TebakoDs} {fdTable : FdTable} {memfsTable : MemfsTable} {ino : UInt64}
    (inode : DescribesInode fdTable ds.vfd ino) (shown : ShowsListing listing ino memfsTable)
    (right : ∀ fs, memfsTable[getFsIndex ino.toUInt32.toUInt64]? = some fs →
      ∀ (offset : Nat) entry, listing.entries[offset]? = some entry →
        holds offset (fs.dirent offset entry))
    (invariant : StreamInvariant listing holds ds) (safe : ds.ReadsSafely) :
    StreamInvariant listing holds (ds.readdir fdTable memfsTable).2 ∧
      (ds.readdir fdTable memfsTable).2.vfd = ds.vfd ∧
      ∀ handed, (ds.readdir fdTable memfsTable).1.2 = some handed →
        HandsOut holds ds.dirPosition handed (ds.readdir fdTable memfsTable).2 := by
  have size := invariant.dirSize
  have range := invariant.position
  unfold TebakoDs.readdir
  by_cases negative : ds.dirPosition < 0
  · simp only [if_pos negative]
    exact ⟨invariant, trivial, by simp⟩
  · simp only [if_neg negative]
    have position : (sizeT ds.dirPosition : Int) = ds.dirPosition := by
      apply sizeT_cast <;> omega
    by_cases past : ds.dirSize ≤ sizeT ds.dirPosition
    · simp only [if_pos past]
      exact ⟨invariant, trivial, by simp⟩
    · simp only [if_neg past]
      obtain ⟨kept, fits⟩ := safe (by omega) (by omega)
      by_cases miss : ds.Misses
      · have small := fits miss
        simp only [if_pos miss, narrowInt_of_lt (by omega) small]
        rcases loadCache_cases false inode shown right (by omega) small with
          ⟨into, loaded, result⟩ | ⟨ret, into, failed, empty, oneOf, result⟩
        · have window := loaded.nonempty (by omega)
          have inside := @handsOut_of_window holds
            { ds with toDirCache := into, cacheStart := ds.dirPosition } loaded.filled
            (Int.le_refl _) (by simp only; omega)
          simp only [result, dwarfsIoContinue, ↓reduceIte, Bool.false_eq_true, Option.some.injEq,
            forall_eq']
          refine ⟨⟨loaded.filled, ?_, small, loaded.dirSize, ?_⟩, rfl, inside⟩
          · simp only [TebakoDs.advance]
            omega
          · simp only [TebakoDs.advance]
            omega
        · have different : ¬ ret = dwarfsIoContinue := failed
          simp only [result, if_neg different, reduceCtorEq, false_implies, implies_true, and_true]
          exact ⟨filled_of_empty empty, invariant.startNonneg, invariant.startSmall,
            by simp only; omega, by simp only; omega⟩
      · simp only [if_neg miss, Option.some.injEq, forall_eq']
        obtain ⟨notBefore, loaded⟩ := hit_in_window invariant.startNonneg invariant.startSmall
          invariant.filled.within (by omega) range kept miss
        have within := invariant.filled.within
        have startSmall := invariant.startSmall
        refine ⟨⟨invariant.filled, invariant.startNonneg, invariant.startSmall, size, ?_⟩, rfl,
          handsOut_of_window invariant.filled notBefore loaded⟩
        unfold tebakoDirCacheSize at within
        simp only [TebakoDs.advance]
        omega

end Operation

/-! ## Reads that succeed -/

variable {listing : DirListing} {ino : UInt64} {memfsTable : MemfsTable}

/-- The descriptor's image is mounted and reading the directory in it does not
fail. -/
def ReadsListing (listing : DirListing) (ino : UInt64) (memfsTable : MemfsTable) : Prop :=
  ∃ fs, memfsTable[getFsIndex ino.toUInt32.toUInt64]? = some fs ∧
    listing.ReadableIn fs ino.toUInt32

theorem ReadsListing.shows (reads : ReadsListing listing ino memfsTable) :
    ShowsListing listing ino memfsTable := by
  obtain ⟨fs, mounted, readable⟩ := reads
  intro other found
  obtain rfl := Option.some.inj (mounted.symm.trans found)
  exact readable.toShownBy

theorem ReadsListing.holds (reads : ReadsListing listing ino memfsTable) {fs : Memfs}
    (mounted : memfsTable[getFsIndex ino.toUInt32.toUInt64]? = some fs) (offset : Nat)
    (entry : InodeView × Str) (listed : listing.entries[offset]? = some entry) :
    listing.Holds offset (fs.dirent offset entry) := by
  obtain ⟨other, found, readable⟩ := reads
  obtain rfl := Option.some.inj (found.symm.trans mounted)
  exact readable.holds listed

theorem fillCache_succeeds {fs : Memfs} {dir : DirView} {cacheStart : Int}
    (answers : ∀ offset < listing.entries.length, ∃ entry ∈ listing.entries,
      fs.fs.readdir dir offset = some entry)
    (attributes : ∀ entry ∈ listing.entries, fs.fs.getattr entry.1 = .ok (listing.attr entry.1))
    {room : Nat} {into : DirCache} {ret : Int} (size : into.dirSize = listing.entries.length) :
    (fs.fillCache dir cacheStart room into ret).1 = 0 := by
  induction room generalizing into ret with
  | zero => rfl
  | succ room ih =>
      simp only [Memfs.fillCache]
      by_cases more : sizeT (cacheStart + into.cacheSize) < into.dirSize
      · obtain ⟨entry, member, read⟩ := answers _ (size ▸ more)
        have stat := attributes entry member
        simp only [if_pos more, read, Memfs.getattr, stat, Except.map]
        exact ih size
      · simp only [if_neg more]

/-- A load fills the window from one open directory of the image. -/
theorem ReadsListing.loads {ds : TebakoDs} {fdTable : FdTable} {fd : TebakoFd}
    (reads : ReadsListing listing ino memfsTable) (held : fdTable[ds.vfd]? = some fd) (inode : fd.st.ino = ino) :
    ∃ (fs : Memfs) (dir : DirView), (∀ offset < listing.entries.length, ∃ entry ∈ listing.entries,
        fs.fs.readdir dir offset = some entry) ∧ fs.fs.dirsize dir = listing.entries.length ∧
      ∀ cacheStart setPos, ds.loadCache fdTable memfsTable cacheStart setPos =
        (0, { ds with
          toDirCache := (fs.fillCache dir cacheStart tebakoDirCacheSize
            { ds.toDirCache with dirSize := fs.fs.dirsize dir, cacheSize := 0 } (-1)).2
          dirPosition := if setPos then cacheStart else ds.dirPosition
          cacheStart := cacheStart }) := by
  obtain ⟨fs, mounted, readable⟩ := reads
  obtain ⟨view, dir, found, opens, answers⟩ := readable.opens
  have answered : ∀ offset < listing.entries.length, ∃ entry ∈ listing.entries,
      fs.fs.readdir dir offset = some entry := by
    intro offset below
    obtain ⟨entry, read⟩ := Option.isSome_iff_exists.mp (answers offset below)
    have listed := readable.readdir view dir offset entry found opens read
    exact ⟨entry, List.mem_of_getElem? listed, read⟩
  have size := readable.dirsize view dir found opens
  refine ⟨fs, dir, answered, size, fun cacheStart setPos => ?_⟩
  have success := @fillCache_succeeds listing fs dir cacheStart answered readable.getattr
    tebakoDirCacheSize { ds.toDirCache with dirSize := fs.fs.dirsize dir, cacheSize := 0 } (-1) size
  simp only [TebakoDs.loadCache, FdTable.readdir, held, inode, dwarfsInodeReaddir, mounted,
    Memfs.inodeReaddir, found, Option.bind_some, opens, success, dwarfsIoContinue, Int.lt_irrefl,
    ↓reduceIte]

theorem loadCache_succeeds {ds : TebakoDs} {fdTable : FdTable} {fd : TebakoFd} {cacheStart : Int}
    (setPos : Bool) (held : fdTable[ds.vfd]? = some fd) (inode : fd.st.ino = ino)
    (reads : ReadsListing listing ino memfsTable) (nonneg : 0 ≤ cacheStart)
    (small : cacheStart < 2 ^ 31) :
    ∃ into, LoadedWindow listing listing.Holds cacheStart into ∧
      ds.loadCache fdTable memfsTable cacheStart setPos =
        (0, { ds with
          toDirCache := into
          dirPosition := if setPos then cacheStart else ds.dirPosition
          cacheStart := cacheStart }) := by
  have described : DescribesInode fdTable ds.vfd ino := by
    intro other found
    obtain rfl := Option.some.inj (held.symm.trans found)
    exact inode
  rcases loadCache_cases setPos described reads.shows (fun _ => reads.holds) nonneg small with
    loaded | ⟨ret, into, failed, _, _, result⟩
  · exact loaded
  · exfalso
    obtain ⟨fs, dir, _, _, loads⟩ := reads.loads held inode
    have code := congrArg Prod.fst ((loads cacheStart setPos).symm.trans result)
    exact failed code.symm

theorem opendir_of_load {table : DsTable} {fdTable : FdTable} {vfd : Int} {address : Nat}
    {memory : Vector TebakoDirent tebakoDirCacheSize} {ds : TebakoDs}
    (loaded : (TebakoDs.make vfd memory).loadCache fdTable memfsTable 0 true = (0, ds)) :
    table.opendir fdTable memfsTable vfd address memory =
      (address, ds.dirSize, Std.ExtTreeMap.insert table address ds) := by
  simp only [DsTable.opendir, loaded, dwarfsIoContinue, ↓reduceIte]

theorem readdir_inside {ds : TebakoDs} {fdTable : FdTable} {fd : TebakoFd}
    (held : fdTable[ds.vfd]? = some fd) (inode : fd.st.ino = ino)
    (reads : ReadsListing listing ino memfsTable)
    (invariant : StreamInvariant listing listing.Holds ds) (nonempty : 0 < ds.cacheSize)
    (nonneg : 0 ≤ ds.dirPosition) (inside : ds.dirPosition < listing.entries.length)
    (few : listing.entries.length < 2 ^ 31) :
    ∃ after, ds.readdir fdTable memfsTable =
        ((0, some (listing.dirent ds.dirPosition.toNat)), after) ∧
      after.dirPosition = ds.dirPosition + 1 ∧ after.vfd = ds.vfd ∧ 0 < after.cacheSize ∧
      StreamInvariant listing listing.Holds after := by
  have size := invariant.dirSize
  have position : (sizeT ds.dirPosition : Int) = ds.dirPosition := by
    apply sizeT_cast <;> omega
  have notNegative : ¬ ds.dirPosition < 0 := by omega
  have notPast : ¬ ds.dirSize ≤ sizeT ds.dirPosition := by omega
  have handed : ∀ {window : TebakoDs}, HandsOut listing.Holds ds.dirPosition window.slot
      window.advance → window.slot = listing.dirent ds.dirPosition.toNat := by
    intro window out
    obtain ⟨entry, stored, right⟩ := out.entry
    exact stored.trans right.symm
  simp only [TebakoDs.readdir, if_neg notNegative, if_neg notPast]
  by_cases miss : ds.Misses
  · have small : ds.dirPosition < 2 ^ 31 := by omega
    obtain ⟨into, loaded, result⟩ := @loadCache_succeeds listing ino memfsTable ds fdTable fd
      ds.dirPosition false held inode reads nonneg small
    have window := loaded.nonempty inside
    have out := @handsOut_of_window listing.Holds
      { ds with toDirCache := into, cacheStart := ds.dirPosition } loaded.filled
      (Int.le_refl _) (by simp only; omega)
    simp only [if_pos miss, narrowInt_of_lt nonneg small, result, dwarfsIoContinue, ↓reduceIte,
      Bool.false_eq_true, handed out]
    refine ⟨_, rfl, rfl, rfl, window, loaded.filled, nonneg, small, loaded.dirSize, ?_⟩
    simp only [TebakoDs.advance]
    omega
  · obtain ⟨notBefore, loaded⟩ := hit_in_window invariant.startNonneg invariant.startSmall
      invariant.filled.within nonneg invariant.position (by omega) miss
    have out := handsOut_of_window invariant.filled notBefore loaded
    simp only [if_neg miss, dwarfsIoContinue, handed out]
    refine ⟨_, rfl, rfl, rfl, nonempty, invariant.filled, invariant.startNonneg,
      invariant.startSmall, size, ?_⟩
    simp only [TebakoDs.advance]
    omega

end Tebako
