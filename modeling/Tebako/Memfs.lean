import Tebako.Dwarfs

namespace Tebako

/-! The memfs object: an image in memory, the options it was built with and the
file system loaded from it. -/

structure MemfsOptions where
  readonly : Int := 0
  cacheImage : Int := 0
  enableNlink : Int := 0
  cachesize : Nat := 512 * 2 ^ 20
  workers : Nat := 2
  lockMode : MlockMode := .none
  decompressRatio : ℚ := 4 / 5
  debuglevel : LogLevel := .info
deriving Repr, DecidableEq

/-- `operator<<`: the options a memfs takes over from the global ones. -/
def MemfsOptions.filesystemOptions (opts : MemfsOptions) (imageOffset : Int) :
    FilesystemOptions where
  lockMode := opts.lockMode
  maxBytes := opts.cachesize
  numWorkers := opts.workers
  decompressRatio := opts.decompressRatio
  mmRelease := opts.cacheImage = 0
  initWorkers := true
  enableNlink := opts.enableNlink ≠ 0
  readonly := opts.readonly ≠ 0
  imageOffset := imageOffset

structure Memfs where
  data : List UInt8
  size : UInt32
  dwarfsRootInode : UInt32
  fsopts : FilesystemOptions
  fs : Dwarfs

def makeMemfs (opts : MemfsOptions) (data : List UInt8) (size : UInt32) : Memfs where
  data := data
  size := size
  dwarfsRootInode := 0
  fsopts := opts.filesystemOptions 0
  fs := .unloaded

/-- What loading an image asks of folly and dwarfs; `none` is an exception. -/
structure Loader where
  parseOffset : CString → Option Int
  openImage : List UInt8 → UInt32 → FilesystemOptions → UInt32 → Option Dwarfs

def rOk : UInt32 := 4

def wOk : UInt32 := 2

def xOk : UInt32 := 1

namespace Memfs

def setRootInode (memfs : Memfs) (root : UInt32) : Memfs :=
  { memfs with dwarfsRootInode := root }

/-- `set_image_offset_str`; the result is `none` where it throws. -/
def setImageOffsetStr (loader : Loader) (imageOffset : Option CString) (memfs : Memfs) :
    Option Memfs :=
  match imageOffset with
  | none => some memfs
  | some text =>
      let parsed :=
        if text.chars = ['a', 'u', 't', 'o'] then some imageOffsetAuto else loader.parseOffset text
      parsed.map fun offset => { memfs with fsopts := { memfs.fsopts with imageOffset := offset } }

/-- `memfs::load`: the return code, and the object as the call leaves it. -/
def load (loader : Loader) (imageOffset : Option CString) (memfs : Memfs) : Int × Memfs :=
  match memfs.setImageOffsetStr loader imageOffset with
  | none => (-1, memfs)
  | some ready =>
      match loader.openImage ready.data ready.size ready.fsopts ready.dwarfsRootInode with
      | none => (-1, ready)
      | some fs => (0, { ready with fs := fs })

/-! Calls into dwarfs. It is given the root inode as an offset when the image is
loaded, takes inode numbers with this offset and reports them so. -/

variable (memfs : Memfs)

def reported (view : InodeView) : UInt32 := view.inodeNum + memfs.dwarfsRootInode

def find (inode : UInt32) : Option InodeView := memfs.fs.find (inode - memfs.dwarfsRootInode)

def findChild (inode : UInt32) (name : CString) : Option InodeView :=
  memfs.fs.findChild (inode - memfs.dwarfsRootInode) name

def getattr (view : InodeView) : Except Errno FileStat :=
  (memfs.fs.getattr view).map fun attr =>
    { ino := (memfs.reported view).toUInt64, mode := attr.mode, size := attr.size }

/-- `i_access`: the permissions that count are those of the owner. -/
def iAccess (amode : UInt32) (st : FileStat) : Except Errno Unit :=
  if (st.mode &&& 0o400 = 0 ∧ amode &&& rOk ≠ 0) ∨ amode &&& wOk ≠ 0 ∨
      (st.mode &&& 0o100 = 0 ∧ amode &&& xOk ≠ 0) then .error .EACCES
  else .ok ()

def inodeAccess (inode amode : UInt32) : Except Errno Unit :=
  match memfs.find inode with
  | none => .error .ENOENT
  | some pi => (memfs.getattr pi).bind (iAccess amode)

variable {memfs} {view : InodeView} {st : FileStat}

theorem getattr_cases (stat : memfs.getattr view = .ok st) : ∃ attr, memfs.fs.getattr view = .ok attr ∧
    st = { ino := (memfs.reported view).toUInt64, mode := attr.mode, size := attr.size } := by
  cases got : memfs.fs.getattr view with
  | error errno => simp [getattr, got, Except.map] at stat
  | ok attr =>
      simp only [getattr, got, Except.map, Except.ok.injEq] at stat
      exact ⟨attr, rfl, stat.symm⟩

theorem getattr_ino (stat : memfs.getattr view = .ok st) : st.ino = (memfs.reported view).toUInt64 := by
  obtain ⟨attr, _, rfl⟩ := getattr_cases stat
  rfl

theorem setImageOffsetStr_same {loader : Loader} {imageOffset : Option CString} {ready : Memfs}
    (parsed : memfs.setImageOffsetStr loader imageOffset = some ready) :
    ready.dwarfsRootInode = memfs.dwarfsRootInode ∧ ready.data = memfs.data ∧
      ready.size = memfs.size := by
  cases imageOffset with
  | none =>
      simp only [setImageOffsetStr, Option.some.injEq] at parsed
      exact parsed ▸ ⟨rfl, rfl, rfl⟩
  | some text =>
      obtain ⟨offset, _, same⟩ := Option.map_eq_some_iff.mp parsed
      exact same ▸ ⟨rfl, rfl, rfl⟩

theorem setImageOffsetStr_fs {loader : Loader} {imageOffset : Option CString} {ready : Memfs}
    (parsed : memfs.setImageOffsetStr loader imageOffset = some ready) : ready.fs = memfs.fs := by
  cases imageOffset with
  | none =>
      simp only [setImageOffsetStr, Option.some.injEq] at parsed
      exact parsed ▸ rfl
  | some text =>
      obtain ⟨offset, _, same⟩ := Option.map_eq_some_iff.mp parsed
      exact same ▸ rfl

/-- Loading leaves the object what it is: an image and the offset of its inodes. -/
theorem load_same (loader : Loader) (imageOffset : Option CString) (memfs : Memfs) :
    (memfs.load loader imageOffset).2.dwarfsRootInode = memfs.dwarfsRootInode ∧
      (memfs.load loader imageOffset).2.data = memfs.data ∧
      (memfs.load loader imageOffset).2.size = memfs.size := by
  cases parsed : memfs.setImageOffsetStr loader imageOffset with
  | none => simp only [load, parsed, and_self]
  | some ready =>
      have same := setImageOffsetStr_same parsed
      simp only [load, parsed]
      split <;> exact same

end Memfs

end Tebako
