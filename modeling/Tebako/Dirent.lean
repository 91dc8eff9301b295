import Tebako.FdTable

namespace Tebako

open Data

/-! Directory streams: a window of entries over a directory of the image, and a
position that moves through it.

Positions are `long`, sizes are `size_t`; where the source mixes them the value
is converted as C++ does it. -/

def tebakoDirCacheSize : Nat := 50

/-- The value of a signed number after conversion to `size_t`. -/
def sizeT (value : Int) : Nat := (value % 2 ^ 64).toNat

/-- The value after conversion to `int`. -/
def narrowInt (value : Int) : Int := value.bmod (2 ^ 32)

theorem sizeT_cast {value : Int} (nonneg : 0 ≤ value) (range : value < 2 ^ 64) :
    (sizeT value : Int) = value := by
  rw [sizeT, Int.toNat_of_nonneg (Int.emod_nonneg _ (by decide))]
  exact Int.emod_eq_of_lt nonneg range

theorem narrowInt_of_lt {value : Int} (nonneg : 0 ≤ value) (range : value < 2 ^ 31) :
    narrowInt value = value := by
  rw [narrowInt, Int.bmod_eq_of_le_mul_two] <;> omega

/-- `IFTODT` -/
def direntType (mode : UInt32) : UInt32 := (mode &&& fileTypeMask) >>> 12

/-- A `tebako_dirent`. The number and the type come from a stat buffer that is
left uninitialised, `none` here, when the attributes cannot be read. -/
structure TebakoDirent where
  dIno : Option UInt64
  dOff : Int
  dType : Option UInt32
  dName : CString
deriving DecidableEq

structure DirCache where
  cache : Vector TebakoDirent tebakoDirCacheSize
  cacheSize : Nat
  dirSize : Nat

namespace Memfs

/-- One entry as the loop of `inode_readdir` stores it. -/
def dirent (memfs : Memfs) (offset : Int) (entry : InodeView × Str) : TebakoDirent :=
  let st := (memfs.getattr entry.1).toOption
  { dIno := st.map (·.ino)
    dOff := offset
    dType := st.map fun st => direntType st.mode
    dName := tebakoPathAssign entry.2 }

/-- The loop of `inode_readdir`, with at most `room` more entries to store. The
result is the return code, which a failed read leaves as the last entry set it. -/
def fillCache (memfs : Memfs) (dir : DirView) (cacheStart : Int) :
    Nat → DirCache → Int → Int × DirCache
  | 0, into, _ => (0, into)
  | room + 1, into, ret =>
      if sizeT (cacheStart + into.cacheSize) < into.dirSize then
        match memfs.fs.readdir dir (sizeT (cacheStart + into.cacheSize)) with
        | none => (ret, into)
        | some entry =>
            let stored := memfs.dirent (cacheStart + into.cacheSize) entry
            memfs.fillCache dir cacheStart room
              { into with
                cache := into.cache.setIfInBounds into.cacheSize stored
                cacheSize := into.cacheSize + 1 }
              (match memfs.getattr entry.1 with
              | .ok _ => dwarfsIoContinue
              | .error _ => dwarfsIoError)
      else (0, into)

def inodeReaddir (memfs : Memfs) (inode : UInt32) (cacheStart : Int) (bufferSize : Nat)
    (into : DirCache) : Int × DirCache :=
  let (ret, into) :=
    match (memfs.find inode).bind memfs.fs.opendir with
    | none => (-1, into)
    | some dir =>
        memfs.fillCache dir cacheStart bufferSize
          { into with dirSize := memfs.fs.dirsize dir, cacheSize := 0 } (-1)
  if ret < 0 then (ret, { into with cacheSize := 0 }) else (ret, into)

end Memfs

def dwarfsInodeReaddir (memfsTable : MemfsTable) (inode : UInt32) (cacheStart : Int)
    (bufferSize : Nat) (into : DirCache) : Int × DirCache :=
  match memfsTable[getFsIndex inode.toUInt64]? with
  | none => (dwarfsIoError, into)
  | some fs => fs.inodeReaddir inode cacheStart bufferSize into

def FdTable.readdir (fdTable : FdTable) (memfsTable : MemfsTable) (vfd cacheStart : Int)
    (bufferSize : Nat) (into : DirCache) : Int × DirCache :=
  match fdTable[vfd]? with
  | none => (dwarfsInvalidFd, into)
  | some fd => dwarfsInodeReaddir memfsTable fd.st.ino.toUInt32 cacheStart bufferSize into

structure TebakoDs extends DirCache where
  dirPosition : Int
  cacheStart : Int
  vfd : Int

namespace TebakoDs

/-- The constructor. It leaves the entries as they are in fresh memory. -/
def make (vfd : Int) (memory : Vector TebakoDirent tebakoDirCacheSize) : TebakoDs where
  cache := memory
  cacheSize := 0
  dirSize := 0
  dirPosition := -1
  cacheStart := 0
  vfd := vfd

def loadCache (ds : TebakoDs) (fdTable : FdTable) (memfsTable : MemfsTable) (newCacheStart : Int)
    (setPos : Bool) : Int × TebakoDs :=
  let (ret, read) :=
    fdTable.readdir memfsTable ds.vfd newCacheStart tebakoDirCacheSize ds.toDirCache
  let ds := { ds with toDirCache := read }
  if ret = dwarfsIoContinue then
    (ret, { ds with
      dirPosition := if setPos then newCacheStart else ds.dirPosition
      cacheStart := newCacheStart })
  else (ret, { ds with dirPosition := -1, cacheSize := 0 })

/-- What `&cache[dir_position++ - cache_start]` points to: nothing outside the
array. -/
def slot (ds : TebakoDs) : Option TebakoDirent :=
  if 0 ≤ ds.dirPosition - ds.cacheStart then ds.cache[(ds.dirPosition - ds.cacheStart).toNat]?
  else none

def advance (ds : TebakoDs) : TebakoDs := { ds with dirPosition := ds.dirPosition + 1 }

def Misses (ds : TebakoDs) : Prop :=
  sizeT (ds.cacheStart + ds.cacheSize - 1) < sizeT ds.dirPosition ∨ ds.dirPosition < ds.cacheStart

instance (ds : TebakoDs) : Decidable ds.Misses := inferInstanceAs (Decidable (_ ∨ _))

abbrev Handed := Option TebakoDirent

/-- `sync_tebako_dstable::readdir` on the stream it finds. -/
def readdir (ds : TebakoDs) (fdTable : FdTable) (memfsTable : MemfsTable) :
    (Int × Option Handed) × TebakoDs :=
  if ds.dirPosition < 0 then ((dwarfsIoError, none), ds)
  else if ds.dirSize ≤ sizeT ds.dirPosition then ((dwarfsIoContinue, none), ds)
  else if ds.Misses then
    let (ret, ds) := ds.loadCache fdTable memfsTable (narrowInt ds.dirPosition) false
    if ret = dwarfsIoContinue then ((ret, some ds.slot), ds.advance) else ((ret, none), ds)
  else ((dwarfsIoContinue, some ds.slot), ds.advance)

end TebakoDs

abbrev DsTable := Std.ExtTreeMap Nat TebakoDs

namespace DsTable

/-- `opendir`: the stream's address, 0 for a failure, and its size. `address` is
where the new stream lies. -/
def opendir (table : DsTable) (fdTable : FdTable) (memfsTable : MemfsTable) (vfd : Int)
    (address : Nat) (memory : Vector TebakoDirent tebakoDirCacheSize) : Nat × Nat × DsTable :=
  let (ret, ds) := (TebakoDs.make vfd memory).loadCache fdTable memfsTable 0 true
  if ret = dwarfsIoContinue then (address, ds.dirSize, Std.ExtTreeMap.insert table address ds)
  else (0, 0, table)

def closedir (table : DsTable) (fdTable : FdTable) (dirp : Nat) : Int × DsTable × FdTable :=
  match table[dirp]? with
  | none => (dwarfsInvalidFd, table, fdTable)
  | some ds =>
      let (ret, fdTable) := fdTable.close ds.vfd
      (ret, table.erase dirp, fdTable)

def closeAll (table : DsTable) (fdTable : FdTable) : DsTable × FdTable :=
  (∅, table.toList.foldl (fun fdTable entry => (fdTable.close entry.2.vfd).2) fdTable)

def telldir (table : DsTable) (dirp : Nat) : Int :=
  match table[dirp]? with
  | none => dwarfsInvalidFd
  | some ds => ds.dirPosition

def seekdir (table : DsTable) (dirp : Nat) (pos : Int) : Int × DsTable :=
  match table[dirp]? with
  | none => (dwarfsInvalidFd, table)
  | some ds => (dwarfsIoContinue, Std.ExtTreeMap.insert table dirp { ds with dirPosition := pos })

def readdir (table : DsTable) (fdTable : FdTable) (memfsTable : MemfsTable) (dirp : Nat) :
    (Int × Option TebakoDs.Handed) × DsTable :=
  match table[dirp]? with
  | none => ((dwarfsInvalidFd, none), table)
  | some ds =>
      let (answer, ds) := ds.readdir fdTable memfsTable
      (answer, Std.ExtTreeMap.insert table dirp ds)

end DsTable

end Tebako
