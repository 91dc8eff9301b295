import Tebako.Dirent
import Tebako.IoHelpers
import Tebako.MountTable

namespace Tebako

/-! Mounting and unmounting images: the calls that set up the tables of the
library and take them down again. -/

structure Globals where
  options : MemfsOptions
  memfsTable : MemfsTable
  mountTable : MountTable
  fdTable : FdTable
  dsTable : DsTable
  cwd : Cwd

def Globals.initial : Globals where
  options := {}
  memfsTable := ∅
  mountTable := ∅
  fdTable := ∅
  dsTable := ∅
  cwd := none

def releaseMemfsResources (g : Globals) : Globals :=
  let (dsTable, fdTable) := g.dsTable.closeAll g.fdTable
  { g with dsTable := dsTable, fdTable := fdTable.closeAll, mountTable := ∅, cwd := .drop }

/-! ## Options -/

/-- The parsers of option texts; `none` is an exception. -/
structure OptionParsers where
  parseLevel : CString → Option LogLevel
  parseSizeWithUnit : CString → Option Nat
  toDouble : CString → Option ℚ
  parseMlockMode : CString → Option MlockMode
  toSize : CString → Option Nat

/-- A change of the options, and whether it comes to its end without throwing. -/
abbrev OptionSetter := MemfsOptions → Bool × MemfsOptions

def setOption (parse : CString → Option α) (default : α)
    (assign : α → MemfsOptions → MemfsOptions) (text : Option CString) : OptionSetter := fun opts =>
  match text with
  | none => (true, assign default opts)
  | some text =>
      match parse text with
      | none => (false, opts)
      | some value => (true, assign value opts)

variable (parsers : OptionParsers)

def setDebuglevel : Option CString → OptionSetter :=
  setOption parsers.parseLevel .info fun level opts => { opts with debuglevel := level }

def setCachesize : Option CString → OptionSetter :=
  setOption parsers.parseSizeWithUnit (512 * 2 ^ 20) fun size opts => { opts with cachesize := size }

/-- The range is checked when the value has been stored already. -/
def setDecompressRatio (text : Option CString) : OptionSetter := fun opts =>
  let (parsed, opts) := setOption parsers.toDouble (4 / 5)
    (fun ratio opts => { opts with decompressRatio := ratio }) text opts
  (parsed && decide (0 ≤ opts.decompressRatio ∧ opts.decompressRatio ≤ 1), opts)

def setLockMode : Option CString → OptionSetter :=
  setOption parsers.parseMlockMode .none fun mode opts => { opts with lockMode := mode }

def setWorkers : Option CString → OptionSetter :=
  setOption parsers.toSize 2 fun workers opts => { opts with workers := workers }

def setOptions : List OptionSetter → OptionSetter
  | [], opts => (true, opts)
  | setter :: rest, opts =>
      match setter opts with
      | (false, opts) => (false, opts)
      | (true, opts) => setOptions rest opts

structure OptionTexts where
  debuglevel : Option CString := none
  cachesize : Option CString := none
  workers : Option CString := none
  mlock : Option CString := none
  decompressRatio : Option CString := none

def OptionTexts.setters (texts : OptionTexts) : List OptionSetter :=
  [setDebuglevel parsers texts.debuglevel, setCachesize parsers texts.cachesize,
    setDecompressRatio parsers texts.decompressRatio, setLockMode parsers texts.mlock,
    setWorkers parsers texts.workers]

/-! ## Images -/

/-- An image in memory, and the text of the offset to load it at. -/
structure ImageSource where
  data : List UInt8
  size : UInt32
  imageOffset : Option CString

variable (loader : Loader)

/-- The index is that of the memfs table, or -1. -/
def loadMemfs (image : ImageSource) (g : Globals) : Int × Globals :=
  let (index, table) := g.memfsTable.insertAuto (makeMemfs g.options image.data image.size)
  let (code, table) := table.load loader image.imageOffset index
  if code ≠ 0 then (-1, { g with memfsTable := Std.ExtTreeMap.erase table index })
  else (index.toNat, { g with memfsTable := table })

def mountMemfs (image : ImageSource) (parentInode : UInt32) (folder : CString) (g : Globals) :
    Int × Globals :=
  let (index, g) := loadMemfs loader image g
  if index ≠ -1 then
    let target := TebakoMountTarget.memfs (UInt32.ofNat index.toNat)
    let (res, mountTable) := g.mountTable.insert (parentInode, folder.chars) target
    (if res then index else -1, { g with mountTable := mountTable })
  else (-1, g)

/-- `mount_memfs_at_root`; it relies on a root image being mounted. -/
def mountMemfsAtRoot (image : ImageSource) (folder : CString) (g : Globals) :
    Option (Int × Globals) :=
  g.memfsTable[(0 : UInt32)]?.map fun root => mountMemfs loader image root.dwarfsRootInode folder g

/-- The part of `mount_root_memfs` that releases the root image there is. -/
def releaseRoot (g : Globals) : Globals :=
  if (0 : UInt32) ∈ g.memfsTable then
    let g := releaseMemfsResources g
    { g with memfsTable := Std.ExtTreeMap.erase g.memfsTable 0 }
  else g

def mountRootMemfs (texts : OptionTexts) (image : ImageSource) (g : Globals) : Int × Globals :=
  match setOptions (texts.setters parsers) g.options with
  | (false, options) => (-1, { g with options := options })
  | (true, options) =>
      let g := releaseRoot { g with options := options }
      let table := (g.memfsTable.insert 0 (makeMemfs options image.data image.size)).2
      let (code, table) := table.load loader image.imageOffset 0
      if code = 0 then (0, { g with memfsTable := table, cwd := .init })
      else (-1, { g with memfsTable := Std.ExtTreeMap.erase table 0 })

def unmountRootMemfs (g : Globals) : Globals :=
  { releaseMemfsResources g with memfsTable := ∅ }

end Tebako
