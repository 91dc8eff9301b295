import Tebako.DirMemory
import Tebako.DirStreamRuns
import Tebako.LinkChain

namespace Tebako

open Data Data.Loop Data.OrderedMap

/-! The list that `tebako_scandir` makes of a directory.

A stream that is only read loads full windows, so that it loads at every 50th
position. The first of them that does not fit an `int` is 2147483650. -/

def lastLoad : Nat := 2147483650

section Windows

variable {listing : DirListing} {ino : UInt64} {memfsTable : MemfsTable} {fdTable : FdTable}
variable {fd : TebakoFd} {ds : TebakoDs} {cacheStart : Int}

theorem fillCache_full {fs : Memfs} {dir : DirView}
    (answers : ∀ offset < listing.entries.length, ∃ entry ∈ listing.entries,
      fs.fs.readdir dir offset = some entry)
    (nonneg : 0 ≤ cacheStart) (small : cacheStart < 2 ^ 31) {room : Nat} {into : DirCache} {ret : Int}
    (size : into.dirSize = listing.entries.length) (fits : into.cacheSize + room ≤ tebakoDirCacheSize)
    (inside : cacheStart + into.cacheSize ≤ listing.entries.length) :
    (fs.fillCache dir cacheStart room into ret).2.cacheSize =
      min (into.cacheSize + room) (listing.entries.length - cacheStart.toNat) := by
  induction room generalizing into ret with
  | zero =>
      simp only [Memfs.fillCache]
      omega
  | succ room ih =>
      unfold tebakoDirCacheSize at fits ih
      have offset : (sizeT (cacheStart + into.cacheSize) : Int) = cacheStart + into.cacheSize := by
        apply sizeT_cast <;> omega
      simp only [Memfs.fillCache]
      by_cases more : sizeT (cacheStart + into.cacheSize) < into.dirSize
      · obtain ⟨entry, _, read⟩ := answers _ (size ▸ more)
        simp only [if_pos more, read]
        refine (@ih { into with
          cache := into.cache.setIfInBounds into.cacheSize (fs.dirent (cacheStart + into.cacheSize) entry)
          cacheSize := into.cacheSize + 1 } _ size ?_ ?_).trans ?_
        · simp only
          omega
        · simp only
          omega
        · simp only
          omega
      · simp only [if_neg more]
        omega

/-- A load that succeeds fills the window, or comes to the end of the directory. -/
theorem loadCache_full (setPos : Bool) (held : fdTable[ds.vfd]? = some fd) (inode : fd.st.ino = ino)
    (reads : ReadsListing listing ino memfsTable) (nonneg : 0 ≤ cacheStart) (small : cacheStart < 2 ^ 31)
    (inside : cacheStart ≤ listing.entries.length) :
    ∃ into, LoadedWindow listing listing.Holds cacheStart into ∧
      into.cacheSize = min tebakoDirCacheSize (listing.entries.length - cacheStart.toNat) ∧
      ds.loadCache fdTable memfsTable cacheStart setPos =
        (0, { ds with
          toDirCache := into
          dirPosition := if setPos then cacheStart else ds.dirPosition
          cacheStart := cacheStart }) := by
  obtain ⟨into, window, loaded⟩ := @loadCache_succeeds listing ino memfsTable ds fdTable fd cacheStart
    setPos held inode reads nonneg small
  refine ⟨into, window, ?_, loaded⟩
  obtain ⟨fs, dir, answered, size, loads⟩ := reads.loads held inode
  have full := @fillCache_full listing cacheStart fs dir answered nonneg small tebakoDirCacheSize
    { ds.toDirCache with dirSize := fs.fs.dirsize dir, cacheSize := 0 } (-1) size (Nat.le_of_eq (Nat.zero_add _))
    (by simpa using inside)
  have same := congrArg (fun result => result.2.cacheSize) ((loads cacheStart setPos).symm.trans loaded)
  simp only at same
  rw [← same, full, Nat.zero_add]

/-- The stream, after as many entries as this have been read from it. -/
structure ReadsAt (listing : DirListing) (vfd : Int) (count : Nat) (ds : TebakoDs) : Prop where
  stream : StreamInvariant listing listing.Holds ds
  position : ds.dirPosition = count
  own : ds.vfd = vfd
  aligned : (tebakoDirCacheSize : Int) ∣ ds.cacheStart
  full : ds.cacheSize = min tebakoDirCacheSize (listing.entries.length - ds.cacheStart.toNat)
  start : ds.cacheStart ≤ count
  stop : count ≤ ds.cacheStart + ds.cacheSize

variable {vfd : Int} {count : Nat}

theorem ReadsAt.sizeT_position (at' : ReadsAt listing vfd count ds) (small : count ≤ lastLoad) :
    (sizeT ds.dirPosition : Int) = count := by
  unfold lastLoad at small
  rw [at'.position]
  apply sizeT_cast <;> omega

/-- A window is left only at its end. -/
theorem ReadsAt.misses_iff (at' : ReadsAt listing vfd count ds) (inside : count < listing.entries.length)
    (small : count ≤ lastLoad) :
    ds.Misses ↔ (count : Int) = ds.cacheStart + tebakoDirCacheSize := by
  have here := at'.sizeT_position small
  obtain ⟨stream, position, _, _, full, start, stop⟩ := at'
  have nonneg := stream.startNonneg
  unfold lastLoad at small
  have last : (sizeT (ds.cacheStart + ds.cacheSize - 1) : Int) = ds.cacheStart + ds.cacheSize - 1 := by
    unfold tebakoDirCacheSize at full
    apply sizeT_cast <;> omega
  unfold TebakoDs.Misses tebakoDirCacheSize at *
  omega

theorem ReadsAt.hands (at' : ReadsAt listing vfd count ds) (small : count ≤ lastLoad)
    (inWindow : count < ds.cacheStart + ds.cacheSize) :
    ∃ ent, listing.dirent count = some ent ∧ ds.slot = some ent ∧
      ReadsAt listing vfd (count + 1) ds.advance := by
  obtain ⟨stream, position, own, aligned, full, start, stop⟩ := at'
  have out := @handsOut_of_window listing.Holds ds stream.filled (by omega) (by omega)
  obtain ⟨ent, slot, right⟩ := out.entry
  rw [position, DirListing.Holds, Int.toNat_natCast] at right
  refine ⟨ent, right, slot, ?_⟩
  unfold lastLoad at small
  constructor
  · exact ⟨stream.filled, stream.startNonneg, stream.startSmall, stream.dirSize,
      by simp only [TebakoDs.advance]; omega⟩
  · simp only [TebakoDs.advance]
    omega
  · exact own
  · exact aligned
  · exact full
  · simp only [TebakoDs.advance]
    omega
  · simp only [TebakoDs.advance]
    omega

theorem readdir_hit (nonneg : 0 ≤ ds.dirPosition) (more : sizeT ds.dirPosition < ds.dirSize)
    (hit : ¬ ds.Misses) : ds.readdir fdTable memfsTable = ((0, some ds.slot), ds.advance) := by
  rw [TebakoDs.readdir, if_neg (Int.not_lt.mpr nonneg), if_neg (Nat.not_le.mpr more), if_neg hit]
  rfl

theorem readdir_miss {window : TebakoDs} (nonneg : 0 ≤ ds.dirPosition)
    (more : sizeT ds.dirPosition < ds.dirSize) (miss : ds.Misses)
    (loaded : ds.loadCache fdTable memfsTable (narrowInt ds.dirPosition) false = (0, window)) :
    ds.readdir fdTable memfsTable = ((0, some window.slot), window.advance) := by
  rw [TebakoDs.readdir, if_neg (Int.not_lt.mpr nonneg), if_neg (Nat.not_le.mpr more), if_pos miss, loaded]
  rfl

theorem ReadsAt.more (at' : ReadsAt listing vfd count ds) (inside : count < listing.entries.length)
    (small : count ≤ lastLoad) : 0 ≤ ds.dirPosition ∧ sizeT ds.dirPosition < ds.dirSize := by
  have position := at'.position
  have size := at'.stream.dirSize
  have here := at'.sizeT_position small
  omega

theorem ReadsAt.next (at' : ReadsAt listing vfd count ds) (held : fdTable[vfd]? = some fd)
    (inode : fd.st.ino = ino) (reads : ReadsListing listing ino memfsTable)
    (inside : count < listing.entries.length) (small : count < lastLoad) :
    ∃ after ent, listing.dirent count = some ent ∧
      ds.readdir fdTable memfsTable = ((0, some (some ent)), after) ∧
      ReadsAt listing vfd (count + 1) after := by
  have misses := at'.misses_iff inside (Nat.le_of_lt small)
  obtain ⟨nonneg, more⟩ := at'.more inside (Nat.le_of_lt small)
  by_cases miss : ds.Misses
  · obtain ⟨stream, position, own, aligned, full, start, stop⟩ := at'
    have stopped := misses.mp miss
    have fits : ds.dirPosition < 2 ^ 31 := by
      unfold tebakoDirCacheSize at aligned stopped
      unfold lastLoad at small
      omega
    obtain ⟨into, loaded, filled, result⟩ := @loadCache_full listing ino memfsTable fdTable fd ds
      ds.dirPosition false (own ▸ held) inode reads nonneg fits (by omega)
    have window : ReadsAt listing vfd count { ds with toDirCache := into, cacheStart := ds.dirPosition } := by
      refine ⟨⟨loaded.filled, nonneg, fits, loaded.dirSize, by simp only; omega⟩, position, own, ?_,
        filled, Int.le_of_eq position, by simp only; omega⟩
      simp only
      rw [position, stopped]
      exact Int.dvd_add aligned (Int.dvd_refl _)
    have here := loaded.nonempty (by omega)
    obtain ⟨ent, listed, slot, after⟩ := window.hands (Nat.le_of_lt small) (by simp only; omega)
    have reload : ds.loadCache fdTable memfsTable (narrowInt ds.dirPosition) false =
        (0, { ds with toDirCache := into, cacheStart := ds.dirPosition }) := by
      rw [narrowInt_of_lt nonneg fits, result]
      rfl
    exact ⟨_, ent, listed, by rw [readdir_miss nonneg more miss reload, slot], after⟩
  · have here : count < ds.cacheStart + ds.cacheSize := by
      have start := at'.start
      have stop := at'.stop
      have full := at'.full
      have nonneg := at'.stream.startNonneg
      rw [misses] at miss
      omega
    obtain ⟨ent, listed, slot, after⟩ := at'.hands (Nat.le_of_lt small) here
    exact ⟨_, ent, listed, by rw [readdir_hit nonneg more miss, slot], after⟩

/-- The load at this position starts below 0, and what is handed out lies far
behind the array. -/
theorem ReadsAt.overruns (at' : ReadsAt listing vfd lastLoad ds) (held : fdTable[vfd]? = some fd)
    (inode : fd.st.ino = ino) (reads : ReadsListing listing ino memfsTable)
    (inside : lastLoad < listing.entries.length) :
    ∃ after, ds.readdir fdTable memfsTable = ((0, some none), after) := by
  obtain ⟨nonneg, more⟩ := at'.more inside (Nat.le_refl _)
  have misses := at'.misses_iff inside (Nat.le_refl _)
  obtain ⟨stream, position, own, aligned, full, start, stop⟩ := at'
  have small := stream.startSmall
  have miss : ds.Misses := by
    rw [misses]
    unfold tebakoDirCacheSize at aligned full ⊢
    unfold lastLoad at start stop inside ⊢
    omega
  obtain ⟨fs, dir, _, _, loads⟩ := reads.loads (own ▸ held) inode
  obtain ⟨into, loaded⟩ : ∃ into, ds.loadCache fdTable memfsTable (narrowInt ds.dirPosition) false =
      (0, { ds with toDirCache := into, cacheStart := narrowInt ds.dirPosition }) := ⟨_, loads _ false⟩
  have behind : TebakoDs.slot { ds with toDirCache := into, cacheStart := narrowInt ds.dirPosition } = none := by
    have start : narrowInt ds.dirPosition = -2147483646 := by
      rw [position, lastLoad, narrowInt, Int.bmod_def]
      decide
    have far : tebakoDirCacheSize ≤ (ds.dirPosition - narrowInt ds.dirPosition).toNat := by
      rw [start, position, lastLoad]
      decide
    simp only [TebakoDs.slot]
    split
    · exact Vector.getElem?_eq_none far
    · rfl
  exact ⟨_, by rw [readdir_miss nonneg more miss loaded, behind]⟩

theorem ReadsAt.ends (at' : ReadsAt listing vfd listing.entries.length ds)
    (small : listing.entries.length ≤ lastLoad) :
    ds.readdir fdTable memfsTable = ((0, none), ds) := by
  have position := at'.position
  have size := at'.stream.dirSize
  have here := at'.sizeT_position small
  rw [TebakoDs.readdir, if_neg (by omega), if_pos (by omega)]
  rfl

theorem readsAt_opened {memory : Vector TebakoDirent tebakoDirCacheSize} (held : fdTable[vfd]? = some fd)
    (inode : fd.st.ino = ino) (reads : ReadsListing listing ino memfsTable) :
    ∃ ds, (TebakoDs.make vfd memory).loadCache fdTable memfsTable 0 true = (0, ds) ∧
      ReadsAt listing vfd 0 ds := by
  obtain ⟨into, loaded, filled, result⟩ := @loadCache_full listing ino memfsTable fdTable fd
    (TebakoDs.make vfd memory) 0 true held inode reads (Int.le_refl 0) (by decide) (by omega)
  refine ⟨_, result, ⟨loaded.filled, Int.le_refl 0, show (0 : Int) < 2 ^ 31 by decide, loaded.dirSize,
    show (0 : Int) < 2 ^ 63 by decide⟩, rfl, rfl, Int.dvd_zero _, filled, Int.le_refl 0, ?_⟩
  simp only
  omega

end Windows

/-! ## The loop -/

/-- The entries that the filter takes, of the first `count` entries. -/
def DirListing.accepted (listing : DirListing) (sel : Option (TebakoDirent → Bool)) (count : Nat) :
    List TebakoDirent :=
  ((List.range count).filterMap listing.dirent).filter fun ent => !sel.any fun sel => !sel ent

/-- The loop, when the entries before the position `count` have been read. -/
structure Scanned (listing : DirListing) (sel : Option (TebakoDirent → Bool)) (address : Nat → Nat)
    (dirp : Nat) (vfd : Int) (count : Nat) (scan : Scan) : Prop where
  stream : ∃ ds, scan.dsTable[dirp]? = some ds ∧ ReadsAt listing vfd count ds
  list : scan.list = some ((List.range (listing.accepted sel count).length).map address)
  copies : ((List.range (listing.accepted sel count).length).map address).map (scan.heap[·]?) =
    (listing.accepted sel count).map some

section Loop

variable {listing : DirListing} {ino : UInt64} {memfsTable : MemfsTable} {fdTable : FdTable}
variable {fd : TebakoFd} {vfd : Int} {count dirp : Nat} {sel : Option (TebakoDirent → Bool)}
variable {address : Nat → Nat} {scan : Scan} {ent : TebakoDirent}

theorem accepted_zero : listing.accepted sel 0 = [] := rfl

theorem accepted_succ (listed : listing.dirent count = some ent) :
    listing.accepted sel (count + 1) = listing.accepted sel count ++
      if sel.any fun sel => !sel ent then [] else [ent] := by
  have last : [count].filterMap listing.dirent = [ent] := by simp [listed]
  rw [DirListing.accepted, List.range_succ, List.filterMap_append, List.filter_append, last]
  cases rejected : sel.any fun sel => !sel ent <;> simp [DirListing.accepted, rejected]

theorem accepted_length_le : (listing.accepted sel count).length ≤ count := by
  refine Nat.le_trans (List.length_filter_le _ _) (Nat.le_trans (List.length_filterMap_le _ _) ?_)
  exact Nat.le_of_eq List.length_range

theorem accepted_mono {more : Nat} (below : count ≤ more) :
    (listing.accepted sel count).length ≤ (listing.accepted sel more).length := by
  obtain ⟨extra, rfl⟩ := Nat.exists_eq_add_of_le below
  rw [DirListing.accepted, DirListing.accepted, List.range_add, List.filterMap_append,
    List.filter_append, List.length_append]
  exact Nat.le_add_right _ _

/-- One entry that is listed. -/
theorem copies_append {list : List Nat} {heap : Std.ExtTreeMap Nat TebakoDirent} {ents : List TebakoDirent}
    {place : Nat} (copies : list.map (heap[·]?) = ents.map some) (new : place ∉ list) :
    (list ++ [place]).map ((heap.insert place ent)[·]?) = (ents ++ [ent]).map some := by
  have kept : list.map ((heap.insert place ent)[·]?) = list.map (heap[·]?) := by
    refine List.map_congr_left fun other member => ?_
    have different : ¬ place = other := fun same => new (same ▸ member)
    simp [Std.ExtTreeMap.getElem?_insert, different]
  rw [List.map_append, List.map_append, kept, copies, List.map_singleton, List.map_singleton,
    Std.ExtTreeMap.getElem?_insert_self]

/-- The body of the loop for a directory of which all copies can be made. -/
def listBody (listing : DirListing) (fdTable : FdTable) (memfsTable : MemfsTable) (dirp : Nat)
    (sel : Option (TebakoDirent → Bool)) (address : Nat → Nat) : Scan → Step Scan (Option Scan) :=
  scanBody fdTable memfsTable dirp listing.entries.length sel fun index => some (address index)

theorem listBody_next (own : Function.Injective address) (held : fdTable[vfd]? = some fd)
    (inode : fd.st.ino = ino) (reads : ReadsListing listing ino memfsTable)
    (scanned : Scanned listing sel address dirp vfd count scan)
    (inside : count < listing.entries.length) (small : count < lastLoad)
    (few : (listing.accepted sel count).length < 2 ^ 31) :
    (2 ^ 31 ≤ (listing.accepted sel (count + 1)).length ∧
      listBody listing fdTable memfsTable dirp sel address scan = .halt none) ∨
    ((listing.accepted sel (count + 1)).length < 2 ^ 31 ∧
      ∃ after, Moves (listBody listing fdTable memfsTable dirp sel address) scan after ∧
        Scanned listing sel address dirp vfd (count + 1) after) := by
  obtain ⟨⟨ds, there, at'⟩, list, copies⟩ := scanned
  obtain ⟨after, ent, listed, read, next⟩ := at'.next held inode reads inside small
  have most := @accepted_length_le listing count sel
  have result : scan.dsTable.readdir fdTable memfsTable dirp =
      ((0, some (some ent)), Std.ExtTreeMap.insert scan.dsTable dirp after) := by
    simp only [DsTable.readdir, there, read]
  have stream : ∃ ds, (Std.ExtTreeMap.insert scan.dsTable dirp after)[dirp]? = some ds ∧
      ReadsAt listing vfd (count + 1) ds := ⟨after, Std.ExtTreeMap.getElem?_insert_self, next⟩
  have grown := @accepted_succ listing count sel ent listed
  by_cases rejected : (sel.any fun sel => !sel ent) = true
  · rw [if_pos rejected, List.append_nil] at grown
    refine .inr ⟨by rwa [grown],
      { scan with dsTable := Std.ExtTreeMap.insert scan.dsTable dirp after }, ?_, stream, ?_, ?_⟩
    · simp only [Moves, listBody, scanBody, list, result, rejected, ↓reduceIte]
    · rwa [grown]
    · rwa [grown]
  · rw [if_neg rejected] at grown
    have length : (listing.accepted sel (count + 1)).length = (listing.accepted sel count).length + 1 := by
      rw [grown, List.length_append, List.length_singleton]
    have inList : (listing.accepted sel count).length < listing.entries.length := by omega
    by_cases fits : (listing.accepted sel count).length + 1 < 2 ^ 31
    · have new : address (listing.accepted sel count).length ∉
          (List.range (listing.accepted sel count).length).map address := by
        intro member
        obtain ⟨index, below, same⟩ := List.mem_map.mp member
        rw [own same] at below
        exact absurd below List.not_mem_range_self
      have slots : (List.range (listing.accepted sel (count + 1)).length).map address =
          (List.range (listing.accepted sel count).length).map address ++
            [address (listing.accepted sel count).length] := by
        rw [length, List.range_succ, List.map_append, List.map_singleton]
      refine .inr ⟨by omega, ⟨Std.ExtTreeMap.insert scan.dsTable dirp after,
        some ((List.range (listing.accepted sel (count + 1)).length).map address),
        scan.heap.insert (address (listing.accepted sel count).length) ent⟩, ?_, stream, rfl, ?_⟩
      · simp only [Moves, listBody, scanBody, list, result, rejected, Bool.false_eq_true, ↓reduceIte,
          List.length_map, List.length_range, inList, fits, and_self, slots]
      · rw [slots, copies_append copies new, grown]
    · refine .inl ⟨by omega, ?_⟩
      simp only [listBody, scanBody, list, result, rejected, Bool.false_eq_true, ↓reduceIte,
        List.length_map, List.length_range, fits, and_false]

/-- The loop comes to each position, or to one where the count overflows. -/
theorem listBody_reaches (own : Function.Injective address) (held : fdTable[vfd]? = some fd)
    (inode : fd.st.ino = ino) (reads : ReadsListing listing ino memfsTable)
    (start : Scanned listing sel address dirp vfd 0 scan) (inside : count ≤ listing.entries.length)
    (small : count ≤ lastLoad) :
    ((listing.accepted sel count).length < 2 ^ 31 ∧ ∃ last,
      Relation.ReflTransGen (Moves (listBody listing fdTable memfsTable dirp sel address)) scan last ∧
        Scanned listing sel address dirp vfd count last) ∨
    (2 ^ 31 ≤ (listing.accepted sel count).length ∧
      Returns (listBody listing fdTable memfsTable dirp sel address) scan none) := by
  induction count with
  | zero => exact .inl ⟨by rw [accepted_zero]; decide, scan, .refl, start⟩
  | succ count ih =>
      rcases ih (Nat.le_of_succ_le inside) (Nat.le_of_succ_le small) with
        ⟨few, last, reached, scanned⟩ | ⟨many, returned⟩
      · rcases listBody_next own held inode reads scanned inside small few with
          ⟨many, stopped⟩ | ⟨fits, after, moved, next⟩
        · exact .inr ⟨many, (returns_of_reaches reached).mpr (returns_of_halt stopped)⟩
        · exact .inl ⟨fits, after, reached.tail moved, next⟩
      · exact .inr ⟨Nat.le_trans many (accepted_mono (Nat.le_succ count)), returned⟩

/-- All entries can be counted and come before the load that goes wrong. -/
def Countable (listing : DirListing) (sel : Option (TebakoDirent → Bool)) : Prop :=
  listing.entries.length ≤ lastLoad ∧ (listing.accepted sel listing.entries.length).length < 2 ^ 31

theorem listBody_lists (own : Function.Injective address) (held : fdTable[vfd]? = some fd)
    (inode : fd.st.ino = ino) (reads : ReadsListing listing ino memfsTable)
    (start : Scanned listing sel address dirp vfd 0 scan) (countable : Countable listing sel) :
    ∃ last, Returns (listBody listing fdTable memfsTable dirp sel address) scan (some last) ∧
      Scanned listing sel address dirp vfd listing.entries.length last := by
  obtain ⟨small, few⟩ := countable
  rcases listBody_reaches own held inode reads start (Nat.le_refl _) small with
    ⟨_, last, reached, scanned⟩ | ⟨many, _⟩
  · obtain ⟨⟨ds, there, at'⟩, list, copies⟩ := scanned
    have result : last.dsTable.readdir fdTable memfsTable dirp =
        ((0, none), Std.ExtTreeMap.insert last.dsTable dirp ds) := by
      simp only [DsTable.readdir, there, at'.ends small]
    refine ⟨{ last with dsTable := Std.ExtTreeMap.insert last.dsTable dirp ds }, ?_,
      ⟨ds, Std.ExtTreeMap.getElem?_insert_self, at'⟩, list, copies⟩
    refine (returns_of_reaches reached).mpr (returns_of_halt ?_)
    simp only [listBody, scanBody, list, result]
  · omega

theorem listBody_undefined (own : Function.Injective address) (held : fdTable[vfd]? = some fd)
    (inode : fd.st.ino = ino) (reads : ReadsListing listing ino memfsTable)
    (start : Scanned listing sel address dirp vfd 0 scan) (uncountable : ¬ Countable listing sel) :
    Returns (listBody listing fdTable memfsTable dirp sel address) scan none := by
  by_cases small : listing.entries.length ≤ lastLoad
  · rcases listBody_reaches own held inode reads start (Nat.le_refl _) small with
      ⟨few, _⟩ | ⟨_, returned⟩
    · exact absurd ⟨small, few⟩ uncountable
    · exact returned
  · have inside := Nat.lt_of_not_le small
    rcases listBody_reaches own held inode reads start (Nat.le_of_lt inside) (Nat.le_refl _) with
      ⟨_, last, reached, scanned⟩ | ⟨_, returned⟩
    · obtain ⟨⟨ds, there, at'⟩, list, _⟩ := scanned
      obtain ⟨after, read⟩ := at'.overruns held inode reads inside
      have result : last.dsTable.readdir fdTable memfsTable dirp =
          ((0, some none), Std.ExtTreeMap.insert last.dsTable dirp after) := by
        simp only [DsTable.readdir, there, read]
      refine (returns_of_reaches reached).mpr (returns_of_halt ?_)
      simp only [listBody, scanBody, list, result]
    · exact returned

end Loop

/-! ## The list -/

/-- A comparison that is consistent on these elements. -/
structure Compares {α : Type} (compar : α → α → Int) (list : List α) : Prop where
  sign : ∀ left ∈ list, ∀ right ∈ list, 0 < compar left right ↔ compar right left < 0
  trans : ∀ left ∈ list, ∀ middle ∈ list, ∀ right ∈ list, compar left middle ≤ 0 →
    compar middle right ≤ 0 → compar left right ≤ 0

/-- What `qsort` does with such a comparison. -/
def Sorts (qsort : (Nat → Nat → Int) → List Nat → List Nat) : Prop :=
  ∀ compar list, Compares compar list → (qsort compar list).Perm list ∧
    (qsort compar list).Pairwise fun left right => compar left right ≤ 0

/-- The list points to each entry that the filter takes, once and to a copy of
its own, in the order that is asked for. -/
structure ListsExactly (listing : DirListing) (sel : Option (TebakoDirent → Bool))
    (compar : Option (TebakoDirent → TebakoDirent → Int)) (list : List Nat)
    (heap : Std.ExtTreeMap Nat TebakoDirent) : Prop where
  count : list.length = (listing.accepted sel listing.entries.length).length
  own : list.Nodup
  entries : ∃ ents, list.map (heap[·]?) = ents.map some ∧
    ents.Perm (listing.accepted sel listing.entries.length) ∧
    (compar = none → ents = listing.accepted sel listing.entries.length) ∧
    ∀ c, compar = some c → ents.Pairwise fun left right => c left right ≤ 0

section Sorting

variable {heap : Std.ExtTreeMap Nat TebakoDirent} {list sortedList : List Nat} {ents : List TebakoDirent}
variable {c : TebakoDirent → TebakoDirent → Int} {qsort : (Nat → Nat → Int) → List Nat → List Nat}

theorem filterMap_of_copies (copies : list.map (heap[·]?) = ents.map some) :
    list.filterMap (heap[·]?) = ents := by
  have same := congrArg (List.filterMap id) copies
  simpa only [List.filterMap_map, Function.comp_def, id, List.filterMap_some] using same

theorem copies_of_perm (copies : list.map (heap[·]?) = ents.map some) (perm : sortedList.Perm list) :
    sortedList.map (heap[·]?) = (sortedList.filterMap (heap[·]?)).map some := by
  have there : ∀ address ∈ sortedList, ∃ ent, heap[address]? = some ent := by
    intro address member
    have listed : heap[address]? ∈ ents.map some :=
      copies ▸ List.mem_map_of_mem (perm.mem_iff.mp member)
    obtain ⟨ent, _, same⟩ := List.mem_map.mp listed
    exact ⟨ent, same.symm⟩
  clear perm
  induction sortedList with
  | nil => rfl
  | cons address rest ih =>
      obtain ⟨ent, here⟩ := there address (by simp)
      have later := ih fun other member => there other (by simp [member])
      simp only [List.map_cons, List.filterMap_cons, here]
      rw [later]

theorem mem_copies {address : Nat} (copies : list.map (heap[·]?) = ents.map some)
    (member : address ∈ list) : ∃ ent ∈ ents, heap[address]? = some ent := by
  have listed : heap[address]? ∈ ents.map some := copies ▸ List.mem_map_of_mem member
  obtain ⟨ent, among, same⟩ := List.mem_map.mp listed
  exact ⟨ent, among, same.symm⟩

theorem comparAt_of_copies {left right : Nat} {first second : TebakoDirent}
    (atLeft : heap[left]? = some first) (atRight : heap[right]? = some second) :
    comparAt heap c left right = c first second := by
  simp only [comparAt, atLeft, atRight]

theorem comparAt_compares (copies : list.map (heap[·]?) = ents.map some) (compares : Compares c ents) :
    Compares (comparAt heap c) list := by
  constructor
  · intro left first right second
    obtain ⟨one, inOne, atLeft⟩ := mem_copies copies first
    obtain ⟨two, inTwo, atRight⟩ := mem_copies copies second
    rw [comparAt_of_copies atLeft atRight, comparAt_of_copies atRight atLeft]
    exact compares.sign one inOne two inTwo
  · intro left first middle second right third
    obtain ⟨one, inOne, atLeft⟩ := mem_copies copies first
    obtain ⟨two, inTwo, atMiddle⟩ := mem_copies copies second
    obtain ⟨three, inThree, atRight⟩ := mem_copies copies third
    rw [comparAt_of_copies atLeft atMiddle, comparAt_of_copies atMiddle atRight,
      comparAt_of_copies atLeft atRight]
    exact compares.trans one inOne two inTwo three inThree

/-- Sorting moves the pointers, and what they point to comes in order. -/
theorem qsort_copies (sorts : Sorts qsort) (copies : list.map (heap[·]?) = ents.map some)
    (compares : Compares c ents) :
    (qsort (comparAt heap c) list).Perm list ∧
      ∃ inOrder : List TebakoDirent, (qsort (comparAt heap c) list).map (heap[·]?) = inOrder.map some ∧
        inOrder.Perm ents ∧ inOrder.Pairwise fun left right => c left right ≤ 0 := by
  obtain ⟨perm, ordered⟩ := sorts (comparAt heap c) list (comparAt_compares copies compares)
  refine ⟨perm, (qsort (comparAt heap c) list).filterMap (heap[·]?), copies_of_perm copies perm, ?_, ?_⟩
  · rw [← filterMap_of_copies copies]
    exact perm.filterMap _
  · rw [List.pairwise_filterMap]
    refine ordered.imp fun {left right} below first atLeft second atRight => ?_
    rwa [comparAt_of_copies atLeft atRight] at below

theorem sorted_lists {listing : DirListing} {sel : Option (TebakoDirent → Bool)}
    {compar : Option (TebakoDirent → TebakoDirent → Int)}
    (sorts : Sorts qsort) (consistent : ∀ c, compar = some c → ∀ ents, Compares c ents) (own : list.Nodup)
    (copies : list.map (heap[·]?) = (listing.accepted sel listing.entries.length).map some) :
    ListsExactly listing sel compar (sorted qsort compar heap list) heap := by
  have length := congrArg List.length copies
  simp only [List.length_map] at length
  cases compar with
  | none => exact ⟨length, own, _, copies, .rfl, fun _ => rfl, fun c same => by cases same⟩
  | some c =>
      by_cases filled : 0 < list.length
      · obtain ⟨perm, inOrder, moved, same, ordered⟩ := qsort_copies sorts copies (consistent c rfl _)
        simp only [sorted, filled, ↓reduceIte]
        refine ⟨perm.length_eq.trans length, perm.nodup_iff.mpr own, inOrder, moved, same,
          fun absent => absurd absent (by simp), fun other compared => ?_⟩
        cases compared
        exact ordered
      · obtain rfl : list = [] := List.eq_nil_of_length_eq_zero (by omega)
        have empty := List.eq_nil_of_length_eq_zero length.symm
        refine ⟨length, own, [], rfl, by rw [empty], fun absent => absurd absent (by simp), fun _ _ => .nil⟩

end Sorting

namespace Process

variable {p : Process} {w : World} {dir : DirMemory} {st : FileStat} {listing : DirListing}
variable {into : StreamMemory} {sel : Option (TebakoDirent → Bool)} {address : Nat → Nat}
variable {compar : Option (TebakoDirent → TebakoDirent → Int)}
variable {qsort : (Nat → Nat → Int) → List Nat → List Nat}

/-- The process once the stream of a directory has been opened. -/
def streaming (p : Process) (st : FileStat) (dirp : Nat) (ds : TebakoDs) : Process :=
  { p.holding st with dsTable := Std.ExtTreeMap.insert p.dsTable dirp ds }

theorem streaming_held {dirp : Nat} {ds : TebakoDs} :
    (p.streaming st dirp ds).fdTable[p.host.dupStdin.1]? = some ⟨st, 0, 0, p.host.dupStdin.1⟩ :=
  Std.ExtTreeMap.getElem?_insert_self

theorem openStreamIn_listing (node : dir.node = true) (room : dir.stream = some into)
    (reads : ReadsListing listing st.ino w.memfsTable) :
    ∃ ds, ReadsAt listing p.host.dupStdin.1 0 ds ∧
      (p.holding st).openStreamIn w p.host.dupStdin.1 dir =
        (.ok (into.address, listing.entries.length), [], p.streaming st into.address ds) := by
  obtain ⟨ds, loaded, at'⟩ := @readsAt_opened listing st.ino w.memfsTable (p.holding st).fdTable
    ⟨st, 0, 0, p.host.dupStdin.1⟩ p.host.dupStdin.1 into.memory Std.ExtTreeMap.getElem?_insert_self rfl reads
  refine ⟨ds, at', ?_⟩
  simp only [openStreamIn, room, loaded, dwarfsIoContinue, node, or_true, ↓reduceIte, at'.stream.dirSize]
  rfl

theorem scanned_start {ds : TebakoDs} {vfd : Int} {dirp : Nat} (at' : ReadsAt listing vfd 0 ds) :
    Scanned listing sel address dirp vfd 0 ⟨(p.streaming st dirp ds).dsTable, some [], ∅⟩ :=
  ⟨⟨ds, Std.ExtTreeMap.getElem?_insert_self, at'⟩, rfl, rfl⟩

/-- The list that comes of the loop, with as much fuel as it takes. -/
theorem scanStream_lists {fd : TebakoFd} {vfd : Int} {dirp : Nat} (own : Function.Injective address)
    (sorts : Sorts qsort) (consistent : ∀ c, compar = some c → ∀ ents, Compares c ents)
    (held : p.fdTable[vfd]? = some fd) (reads : ReadsListing listing fd.st.ino w.memfsTable)
    (start : Scanned listing sel address dirp vfd 0 ⟨p.dsTable, some [], ∅⟩)
    (countable : Countable listing sel) :
    ∃ enough, ∀ fuel ≥ enough, ∃ list heap calls after,
      p.scanStream w fuel dirp listing.entries.length sel compar qsort ⟨true, fun index => some (address index)⟩ =
          some (.listed list heap, calls, after) ∧ ListsExactly listing sel compar list heap := by
  obtain ⟨last, ⟨enough, returned⟩, _, list, copies⟩ := listBody_lists own held rfl reads start countable
  refine ⟨enough, fun fuel more => ?_⟩
  have ran : Loop.run (scanBody p.fdTable w.memfsTable dirp listing.entries.length sel
      fun index => some (address index)) fuel ⟨p.dsTable, some [], ∅⟩ = some (some last) :=
    Loop.run_mono more returned
  have nodup : ((List.range (listing.accepted sel listing.entries.length).length).map address).Nodup :=
    List.nodup_range.map own
  generalize (List.range (listing.accepted sel listing.entries.length).length).map address = copied at *
  have answer : p.scanStream w fuel dirp listing.entries.length sel compar qsort
      ⟨true, fun index => some (address index)⟩ =
      some (.listed (sorted qsort compar last.heap copied) last.heap, ({ p with dsTable := last.dsTable }.closeStream dirp).2) := by
    simp only [scanStream, ↓reduceIte, ran, Option.map_some, list]
  exact ⟨_, _, _, _, answer, sorted_lists sorts consistent nodup copies⟩

theorem scanStream_undefined {fd : TebakoFd} {vfd : Int} {dirp fuel : Nat} {result : Traced ScanAnswer}
    (own : Function.Injective address) (held : p.fdTable[vfd]? = some fd)
    (reads : ReadsListing listing fd.st.ino w.memfsTable)
    (start : Scanned listing sel address dirp vfd 0 ⟨p.dsTable, some [], ∅⟩)
    (uncountable : ¬ Countable listing sel)
    (ran : p.scanStream w fuel dirp listing.entries.length sel compar qsort
      ⟨true, fun index => some (address index)⟩ = some result) : result = (.undefined, [], p) := by
  obtain ⟨finished, returned, rfl⟩ := Option.map_eq_some_iff.mp ran
  have undefined := listBody_undefined own held rfl reads start uncountable
  obtain rfl := Returns.unique ⟨fuel, returned⟩ undefined
  rfl

/-- What is started on a directory that can be opened is the loop. -/
theorem scandirIn_loop {dirname : Option CString} {scan : ScanMemory}
    (backed : ∀ vfd ∈ p.fdTable, vfd ∈ p.host.files) (gives : p.Gives dir.opening) (node : dir.node = true)
    (room : dir.stream = some into) (reads : ReadsListing listing st.ino w.memfsTable) :
    ∃ ds, ReadsAt listing p.host.dupStdin.1 0 ds ∧ ∀ fuel, FindsDir w fuel dirname dir st →
      p.scandirIn w fuel dirname true sel compar qsort dir scan =
        (p.streaming st into.address ds).scanStream w fuel into.address listing.entries.length sel compar
          qsort scan := by
  obtain ⟨ds, at', opened⟩ := @openStreamIn_listing p w dir st listing into node room reads
  refine ⟨ds, at', fun fuel finds => ?_⟩
  obtain ⟨enough, directory, name, path, rfl, known, there⟩ := finds
  simp only [scandirIn, known, openIn_found enough directory there, Option.bind_some,
    acquire_given backed gives, opened, Bool.true_eq_false, ↓reduceIte, List.nil_append]
  exact Option.map_id'

theorem findsDir_mono {fuel larger : Nat} {dirname : Option CString} (more : fuel ≤ larger)
    (finds : FindsDir w fuel dirname dir st) : FindsDir w larger dirname dir st := by
  obtain ⟨enough, directory, name, path, named, known, there⟩ := finds
  exact ⟨enough, directory, name, path, named, known, dwarfsStat_mono more there⟩

theorem findsDir_of_scandirIn {fuel larger : Nat} {dirname : Option CString} {wanted : Bool}
    {scan : ScanMemory} {result : Traced ScanAnswer} (finds : FindsDir w larger dirname dir st)
    (ran : p.scandirIn w fuel dirname wanted sel compar qsort dir scan = some result) :
    FindsDir w fuel dirname dir st := by
  obtain ⟨enough, directory, name, path, rfl, known, there⟩ := finds
  refine ⟨enough, directory, name, path, rfl, known, ?_⟩
  simp only [scandirIn, known, openIn, enough, ↓reduceIte] at ran
  obtain ⟨_, opened, _⟩ := Option.bind_eq_some_iff.mp ran
  obtain ⟨found, looked, _⟩ := Option.map_eq_some_iff.mp opened
  have left := dwarfsStat_mono (Nat.le_max_left fuel larger) looked
  have right := dwarfsStat_mono (Nat.le_max_right fuel larger) there
  rwa [Option.some.inj (left.symm.trans right)] at looked

/-- The call comes to a list of exactly the entries that the filter takes. -/
def ScansExactly (p : Process) (w : World) (dirname : Option CString) (sel : Option (TebakoDirent → Bool))
    (compar : Option (TebakoDirent → TebakoDirent → Int))
    (qsort : (Nat → Nat → Int) → List Nat → List Nat) (dir : DirMemory) (memory : ScanMemory)
    (listing : DirListing) : Prop :=
  ∃ fuel list heap calls after,
    p.scandirIn w fuel dirname true sel compar qsort dir memory = some (.listed list heap, calls, after) ∧
      ListsExactly listing sel compar list heap

theorem scansExactly_iff {dirname : Option CString} (backed : ∀ vfd ∈ p.fdTable, vfd ∈ p.host.files)
    (finds : ∃ fuel, FindsDir w fuel dirname dir st) (gives : p.Gives dir.opening) (node : dir.node = true)
    (room : dir.stream = some into) (reads : ReadsListing listing st.ino w.memfsTable)
    (own : Function.Injective address) (sorts : Sorts qsort)
    (consistent : ∀ c, compar = some c → ∀ ents, Compares c ents) :
    p.ScansExactly w dirname sel compar qsort dir ⟨true, fun index => some (address index)⟩ listing ↔
      Countable listing sel := by
  obtain ⟨found, finds⟩ := finds
  obtain ⟨ds, at', loop⟩ := @scandirIn_loop p w dir st listing into sel compar qsort dirname
    ⟨true, fun index => some (address index)⟩ backed gives node room reads
  constructor
  · intro lists
    obtain ⟨fuel, list, heap, calls, after, ran, _⟩ := lists
    by_contra uncountable
    rw [loop fuel (findsDir_of_scandirIn finds ran)] at ran
    cases scanStream_undefined own streaming_held reads (scanned_start at') uncountable ran
  · intro countable
    obtain ⟨enough, lists⟩ := scanStream_lists own sorts consistent streaming_held reads
      (scanned_start at') countable
    obtain ⟨list, heap, calls, after, ran, exactly⟩ := lists (max found enough) (Nat.le_max_right _ _)
    rw [← loop _ (findsDir_mono (Nat.le_max_left _ _) finds)] at ran
    exact ⟨_, list, heap, calls, after, ran, exactly⟩

end Process

/-- Where the image can be read, there is memory for everything and `qsort` sorts,
a directory is listed exactly if and only if no entry comes behind the first load
that does not fit an `int`, and the entries that are taken can be counted. -/
theorem scandir_lists_iff (p : Process) (w : World) (dirname : Option CString) (dir : DirMemory)
    (st : FileStat) (into : StreamMemory) (listing : DirListing) (sel : Option (TebakoDirent → Bool))
    (compar : Option (TebakoDirent → TebakoDirent → Int)) (address : Nat → Nat)
    (qsort : (Nat → Nat → Int) → List Nat → List Nat)
    (backed : ∀ vfd ∈ p.fdTable, vfd ∈ p.host.files)
    (finds : ∃ fuel, Process.FindsDir w fuel dirname dir st) (gives : p.Gives dir.opening)
    (node : dir.node = true) (room : dir.stream = some into) (reads : ReadsListing listing st.ino w.memfsTable)
    (own : Function.Injective address) (sorts : Sorts qsort)
    (consistent : ∀ c, compar = some c → ∀ ents, Compares c ents) :
    p.ScansExactly w dirname sel compar qsort dir ⟨true, fun index => some (address index)⟩ listing ↔
      Countable listing sel :=
  Process.scansExactly_iff backed finds gives node room reads own sorts consistent

/-! ## A root directory of given names -/

def directoryWorld (names : List Str) : World := .ofRoot (directoryImage names) ∅ fun _ => .error .ENOENT

section Root

variable (names : List Str)

theorem directoryWorld_table : (directoryWorld names).memfsTable[(0 : UInt32)]? = some (directoryImage names) := by
  rw [directoryWorld, World.ofRoot, Std.ExtTreeMap.getElem?_insertIfNew]
  simp

theorem directoryWorld_root :
    findInodeAbs (directoryWorld names) 9 (directoryImage names) (directoryImage names).dwarfsRootInode
      (cStr []) true = some (.ok (.inode ⟨0, 0o040755, 0⟩)) := by
  have components : (cStr []).components = [] := by decide +kernel
  have there : (directoryImage names).find (directoryImage names).dwarfsRootInode = some ⟨0⟩ := by
    simp [Memfs.find, directoryImage, makeMemfs]
  have attr : (directoryImage names).getattr ⟨0⟩ = .ok ⟨0, 0o040755, 0⟩ := rfl
  have entered : (directoryImage names).processInode ⟨0⟩ true [] = .ok (⟨0, 0o040755, 0⟩, .passed []) := by
    simp only [Memfs.processInode, attr]
    rfl
  simp only [findInodeAbs, Loop.run, findBody, there, entered, components, Option.bind_some, followAbs]

theorem directoryWorld_finds :
    Process.FindsDir (directoryWorld names) 9 memfsRoot (dirMemory (some blankStream)) ⟨0, 0o040755, 0⟩ := by
  have known : toTebakoPath Cwd.init (cStr tebakoMountPoint) = some (cStr tebakoMountPoint) := by
    decide +kernel
  have adjusted : adjustedPath (cStr tebakoMountPoint) = some (cStr []) := by decide +kernel
  have followed : oDirectory &&& oNofollow = 0 := by decide
  refine ⟨rfl, by decide, cStr tebakoMountPoint, cStr tebakoMountPoint, rfl, known, ?_⟩
  simp only [dwarfsStat, dwarfsStatVia, rootMemfsCall, memfsCall, directoryWorld_table, findInodeRootVia,
    adjusted, followed, decide_true, directoryWorld_root]

theorem directoryWorld_reads : ReadsListing (directoryListing names) 0 (directoryWorld names).memfsTable :=
  ⟨directoryImage names, directoryWorld_table names, directoryImage_readable names⟩

end Root

theorem freshProcess_gives : freshProcess.Gives (dirMemory (some blankStream)).opening :=
  ⟨rfl, by decide +kernel, rfl⟩

/-- A sort that looks at the elements of the list only. -/
def mergeSorted (compar : Nat → Nat → Int) (list : List Nat) : List Nat :=
  (list.attach.mergeSort fun left right => decide (compar left right ≤ 0)).map Subtype.val

theorem mergeSorted_sorts : Sorts mergeSorted := by
  intro compar list compares
  constructor
  · have perm := (List.mergeSort_perm list.attach fun left right => decide (compar left right ≤ 0)).map
      Subtype.val
    rwa [List.attach_map_subtype_val] at perm
  · rw [mergeSorted, List.pairwise_map]
    refine (List.pairwise_mergeSort ?_ ?_ list.attach).imp fun below => of_decide_eq_true below
    · intro left middle right first second
      simp only [decide_eq_true_eq] at first second ⊢
      exact compares.trans left left.2 middle middle.2 right right.2 first second
    · intro left right
      have sign := compares.sign left left.2 right right.2
      simp only [Bool.or_eq_true, decide_eq_true_eq]
      omega

/-- The last entry first. -/
def fromTheEnd (left right : TebakoDirent) : Int := right.dOff - left.dOff

theorem fromTheEnd_compares (ents : List TebakoDirent) : Compares fromTheEnd ents := by
  unfold fromTheEnd
  constructor
  · intro left _ right _
    omega
  · intro left _ middle _ right _ first second
    omega

theorem two_entries_listed :
    freshProcess.ScansExactly (directoryWorld [['a'], ['b']]) memfsRoot none (some fromTheEnd) mergeSorted
      (dirMemory (some blankStream)) ⟨true, some⟩ (directoryListing [['a'], ['b']]) :=
  (scandir_lists_iff freshProcess (directoryWorld [['a'], ['b']]) memfsRoot (dirMemory (some blankStream))
    ⟨0, 0o040755, 0⟩ blankStream (directoryListing [['a'], ['b']]) none (some fromTheEnd) id mergeSorted
    freshProcess_backed ⟨9, directoryWorld_finds _⟩ freshProcess_gives rfl rfl (directoryWorld_reads _)
    Function.injective_id mergeSorted_sorts
    (fun _ same => Option.some.inj same ▸ fromTheEnd_compares)).mpr ⟨by decide, by decide +kernel⟩

/-- Position 2147483650 is loaded as position -2147483646. -/
theorem large_directory_not_listed : ¬ ∀ (p : Process) (w : World) (dirname : Option CString)
    (dir : DirMemory) (st : FileStat) (into : StreamMemory) (listing : DirListing)
    (sel : Option (TebakoDirent → Bool)) (compar : Option (TebakoDirent → TebakoDirent → Int))
    (address : Nat → Nat) (qsort : (Nat → Nat → Int) → List Nat → List Nat),
    (∀ vfd ∈ p.fdTable, vfd ∈ p.host.files) → (∃ fuel, Process.FindsDir w fuel dirname dir st) →
      p.Gives dir.opening → dir.node = true → dir.stream = some into →
      ReadsListing listing st.ino w.memfsTable → Function.Injective address → Sorts qsort →
      (∀ c, compar = some c → ∀ ents, Compares c ents) →
      p.ScansExactly w dirname sel compar qsort dir ⟨true, fun index => some (address index)⟩ listing := by
  intro always
  generalize same : List.replicate (lastLoad + 1) ['f'] = names
  have length : names.length = lastLoad + 1 := same ▸ List.length_replicate
  have finds : ∃ fuel, Process.FindsDir (directoryWorld names) fuel memfsRoot (dirMemory (some blankStream))
      ⟨0, 0o040755, 0⟩ := ⟨9, directoryWorld_finds names⟩
  have exactly := always freshProcess (directoryWorld names) memfsRoot (dirMemory (some blankStream))
    ⟨0, 0o040755, 0⟩ blankStream (directoryListing names) none none id mergeSorted freshProcess_backed finds
    freshProcess_gives rfl rfl (directoryWorld_reads names) Function.injective_id mergeSorted_sorts
    (fun c absent => by cases absent)
  have countable := (Process.scansExactly_iff freshProcess_backed finds freshProcess_gives rfl rfl
    (directoryWorld_reads names) Function.injective_id mergeSorted_sorts (fun c absent => by cases absent)).mp exactly
  have small := countable.1
  simp only [directoryListing, List.length_map, length] at small
  omega

end Tebako
