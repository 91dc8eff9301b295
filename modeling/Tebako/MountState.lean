import Tebako.Data.Machine
import Tebako.Data.OrderedMap
import Tebako.IoRoot

namespace Tebako

open Data.OrderedMap

/-! What mounting leaves of the state before it. -/

variable {loader : Loader} {image : ImageSource} {parentInode : UInt32} {folder : CString}
variable {g : Globals}

/-- The index that an image would be registered at, 0 for none. -/
def Globals.nextSlot (g : Globals) (image : ImageSource) : UInt32 :=
  (g.memfsTable.insertAuto (makeMemfs g.options image.data image.size)).1

def Globals.registered (g : Globals) (image : ImageSource) : Memfs :=
  (makeMemfs g.options image.data image.size).setRootInode
    (fsInoFromFsAndIno (g.nextSlot image) 0).toUInt32

/-- The slots that `insert_auto` hands out are all taken. -/
def Globals.Full (g : Globals) : Prop := ∀ index : UInt32, 1 ≤ index → index ≤ 7 → index ∈ g.memfsTable

theorem nextSlot_eq_zero_iff : g.nextSlot image = 0 ↔ g.Full := by
  constructor
  · intro none index low high
    exact MemfsTable.mem_of_insertAuto_zero none low high
  · intro full
    by_contra free
    obtain ⟨absent, small, _, _⟩ := MemfsTable.insertAuto_spec free
    have low : 1 ≤ g.nextSlot image := by
      rw [UInt32.le_iff_toNat_le]
      have positive : (g.nextSlot image).toNat ≠ 0 := fun zero => free (UInt32.toNat.inj zero)
      change 1 ≤ (g.nextSlot image).toNat
      omega
    exact absent (full _ low small)

theorem loadMemfs_of_free (loader : Loader) (free : g.nextSlot image ≠ 0) :
    loadMemfs loader image g =
      if ((g.registered image).load loader image.imageOffset).1 ≠ 0 then (-1, g)
      else (((g.nextSlot image).toNat : Int), { g with
        memfsTable := Std.ExtTreeMap.insert g.memfsTable (g.nextSlot image)
          ((g.registered image).load loader image.imageOffset).2 }) := by
  obtain ⟨absent, _, _, same⟩ := MemfsTable.insertAuto_spec free
  have inserted : g.memfsTable.insertAuto (makeMemfs g.options image.data image.size) =
      (g.nextSlot image,
        Std.ExtTreeMap.insert g.memfsTable (g.nextSlot image) (g.registered image)) :=
    Prod.ext rfl (same.trans (insertIfNew_of_not_mem absent _))
  have held : (Std.ExtTreeMap.insert g.memfsTable (g.nextSlot image)
      (g.registered image))[g.nextSlot image]? = some (g.registered image) :=
    Std.ExtTreeMap.getElem?_insert_self
  have kept : Std.ExtTreeMap.erase g.memfsTable (g.nextSlot image) = g.memfsTable :=
    erase_of_not_mem absent
  simp only [loadMemfs, inserted, MemfsTable.load, held, modify_of_getElem? held, insert_insert,
    erase_insert, kept]

/-- Without a free slot the root image is loaded again, or given up. -/
theorem loadMemfs_of_full (loader : Loader) {root : Memfs}
    (mounted : g.memfsTable[(0 : UInt32)]? = some root) (full : g.nextSlot image = 0) :
    loadMemfs loader image g =
      if (root.load loader image.imageOffset).1 ≠ 0 then
        (-1, { g with memfsTable := Std.ExtTreeMap.erase g.memfsTable 0 })
      else (0, { g with
        memfsTable := Std.ExtTreeMap.insert g.memfsTable 0
          (root.load loader image.imageOffset).2 }) := by
  have inserted : g.memfsTable.insertAuto (makeMemfs g.options image.data image.size) =
      (0, g.memfsTable) := by
    have index := full
    simp only [Globals.nextSlot, MemfsTable.insertAuto] at index ⊢
    split
    · rfl
    · rename_i below
      rw [if_neg below] at index
      simp only at index
      rw [index, insertIfNew_of_mem (mem_of_getElem? mounted)]
  simp only [loadMemfs, inserted, MemfsTable.load, mounted, modify_of_getElem? mounted, erase_insert]
  rfl

/-! ## Mounting over a root image -/

/-- Either the image is mounted, in a slot and at a mount point that were free, as
loading it from its data has left it; or nothing has changed. -/
def MountsAtomically (loader : Loader) (image : ImageSource) (parentInode : UInt32)
    (folder : CString) (g : Globals) : Prop :=
  (∃ (index : UInt32) (fs : Memfs), 1 ≤ index ∧ index ∉ g.memfsTable ∧
    (parentInode, folder.chars) ∉ g.mountTable ∧ fs.data = image.data ∧ fs.size = image.size ∧
    ((makeMemfs g.options image.data image.size).setRootInode (fsInoFromFsAndIno index 0).toUInt32).load
      loader image.imageOffset = (0, fs) ∧
    mountMemfs loader image parentInode folder g = ((index.toNat : Int), { g with
      memfsTable := Std.ExtTreeMap.insert g.memfsTable index fs
      mountTable := Std.ExtTreeMap.insert g.mountTable (parentInode, folder.chars)
        (.memfs index) })) ∨
  ∃ ret, ret < 1 ∧ mountMemfs loader image parentInode folder g = (ret, g)

/-- A slot is free, and the mount point is too or the image cannot be loaded.
With all slots and the mount point taken, it takes a root image that loading it
once more leaves as it is. -/
def MountsSafely (loader : Loader) (image : ImageSource) (parentInode : UInt32)
    (folder : CString) (g : Globals) : Prop :=
  ¬ g.Full ∧ (((g.registered image).load loader image.imageOffset).1 ≠ 0 ∨
      (parentInode, folder.chars) ∉ g.mountTable) ∨
    g.Full ∧ (parentInode, folder.chars) ∈ g.mountTable ∧
      ∃ root, g.memfsTable[(0 : UInt32)]? = some root ∧
        root.load loader image.imageOffset = (0, root)

theorem nextSlot_target (free : g.nextSlot image ≠ 0) :
    UInt32.ofNat ((g.nextSlot image).toNat : Int).toNat = g.nextSlot image ∧
      ((g.nextSlot image).toNat : Int) ≠ -1 ∧ 1 ≤ g.nextSlot image := by
  have positive : (g.nextSlot image).toNat ≠ 0 := fun zero => free (UInt32.toNat.inj zero)
  refine ⟨by simp, by omega, ?_⟩
  rw [UInt32.le_iff_toNat_le]
  change 1 ≤ (g.nextSlot image).toNat
  omega

theorem mountMemfs_of_failed {after : Globals} (loaded : loadMemfs loader image g = (-1, after)) :
    mountMemfs loader image parentInode folder g = (-1, after) := by
  simp only [mountMemfs, loaded, ne_eq, not_true_eq_false, ↓reduceIte]

theorem mountMemfs_of_load {index : UInt32} {table : MemfsTable} (notError : (index.toNat : Int) ≠ -1)
    (loaded : loadMemfs loader image g = ((index.toNat : Int), { g with memfsTable := table })) :
    mountMemfs loader image parentInode folder g =
      if (parentInode, folder.chars) ∈ g.mountTable then (-1, { g with memfsTable := table })
      else ((index.toNat : Int), { g with
        memfsTable := table
        mountTable := Std.ExtTreeMap.insert g.mountTable (parentInode, folder.chars)
          (.memfs index) }) := by
  simp only [mountMemfs, loaded, ne_eq, notError, not_false_eq_true, ↓reduceIte,
    Int.toNat_natCast, UInt32.ofNat_toNat, MountTable.insert]
  split
  · rename_i new
    have absent : (parentInode, folder.chars) ∉ g.mountTable := of_decide_eq_true new
    rw [if_neg absent, insertIfNew_of_not_mem absent]
  · rename_i taken
    have present : (parentInode, folder.chars) ∈ g.mountTable := by simpa using taken
    rw [if_pos present, insertIfNew_of_mem present]

theorem mountsAtomically_of_result {ret : Int} {after : Globals}
    (result : mountMemfs loader image parentInode folder g = (ret, after)) (small : ret < 1) :
    MountsAtomically loader image parentInode folder g ↔ after = g := by
  constructor
  · intro separate
    rcases separate with ⟨index, fs, low, _, _, _, _, _, other⟩ | ⟨other, _, same⟩
    · have code := congrArg Prod.fst (result.symm.trans other)
      rw [UInt32.le_iff_toNat_le] at low
      change 1 ≤ index.toNat at low
      simp only at code
      omega
    · exact congrArg Prod.snd (result.symm.trans same)
  · intro same
    subst same
    exact .inr ⟨ret, small, result⟩

theorem mountsAtomically_iff_of_full {root : Memfs} (mounted : g.memfsTable[(0 : UInt32)]? = some root)
    (full : g.nextSlot image = 0) :
    MountsAtomically loader image parentInode folder g ↔
      (parentInode, folder.chars) ∈ g.mountTable ∧
        root.load loader image.imageOffset = (0, root) := by
  have loaded := loadMemfs_of_full loader mounted full
  by_cases failed : (root.load loader image.imageOffset).1 ≠ 0
  · rw [if_pos failed] at loaded
    have result : mountMemfs loader image parentInode folder g =
        (-1, { g with memfsTable := Std.ExtTreeMap.erase g.memfsTable 0 }) :=
      mountMemfs_of_failed loaded
    rw [mountsAtomically_of_result result (by decide)]
    constructor
    · intro same
      exact absurd (congrArg Globals.memfsTable same) (erase_ne_self (mem_of_getElem? mounted))
    · intro atomic
      obtain ⟨_, again⟩ := atomic
      exact absurd (congrArg Prod.fst again) failed
  · rw [if_neg failed] at loaded
    have result := @mountMemfs_of_load loader image parentInode folder g 0 _ (by decide) loaded
    by_cases taken : (parentInode, folder.chars) ∈ g.mountTable
    · rw [if_pos taken] at result
      rw [mountsAtomically_of_result result (by decide)]
      constructor
      · intro same
        have kept := insert_eq_self_iff.mp (congrArg Globals.memfsTable same)
        refine ⟨taken, Prod.ext (not_not.mp failed) ?_⟩
        exact Option.some.inj (kept.symm.trans mounted)
      · intro atomic
        obtain ⟨_, again⟩ := atomic
        rw [again, insert_eq_self_iff.mpr mounted]
    · rw [if_neg taken] at result
      rw [mountsAtomically_of_result result (by decide)]
      constructor
      · intro same
        exact absurd (congrArg Globals.mountTable same) (insert_ne_self taken _)
      · intro atomic
        obtain ⟨present, _⟩ := atomic
        exact absurd present taken

theorem mountsAtomically_iff_of_free (free : g.nextSlot image ≠ 0) :
    MountsAtomically loader image parentInode folder g ↔
      ((g.registered image).load loader image.imageOffset).1 ≠ 0 ∨
        (parentInode, folder.chars) ∉ g.mountTable := by
  have loaded := loadMemfs_of_free loader free
  obtain ⟨absent, _, _, _⟩ := MemfsTable.insertAuto_spec free
  obtain ⟨_, notError, low⟩ := nextSlot_target free
  by_cases failed : ((g.registered image).load loader image.imageOffset).1 ≠ 0
  · rw [if_pos failed] at loaded
    have result : mountMemfs loader image parentInode folder g = (-1, g) := mountMemfs_of_failed loaded
    rw [mountsAtomically_of_result result (by decide)]
    exact ⟨fun _ => .inl failed, fun _ => rfl⟩
  · rw [if_neg failed] at loaded
    have result := @mountMemfs_of_load loader image parentInode folder g _ _ notError loaded
    by_cases taken : (parentInode, folder.chars) ∈ g.mountTable
    · rw [if_pos taken] at result
      rw [mountsAtomically_of_result result (by decide)]
      constructor
      · intro same
        exact absurd (congrArg Globals.memfsTable same) (insert_ne_self absent _)
      · intro failed
        rcases failed with failure | missing
        · exact absurd failure failed
        · exact absurd taken missing
    · rw [if_neg taken] at result
      obtain ⟨_, data, size⟩ := Memfs.load_same loader image.imageOffset (g.registered image)
      have gave : (g.registered image).load loader image.imageOffset =
          (0, ((g.registered image).load loader image.imageOffset).2) := Prod.ext (not_not.mp failed) rfl
      exact ⟨fun _ => .inr taken, fun _ => .inl ⟨_, _, low, absent, taken, data, size, gave, result⟩⟩

/-- Mounting an image over a root image is atomic exactly when a slot is free
and, unless the image fails to load, the mount point is free too. -/
theorem mountsAtomically_iff (loader : Loader) (image : ImageSource) (parentInode : UInt32)
    (folder : CString) (g : Globals) (mounted : (0 : UInt32) ∈ g.memfsTable) :
    MountsAtomically loader image parentInode folder g ↔
      MountsSafely loader image parentInode folder g := by
  obtain ⟨root, present⟩ := exists_of_mem mounted
  unfold MountsSafely
  rw [← @nextSlot_eq_zero_iff image g]
  by_cases full : g.nextSlot image = 0
  · rw [mountsAtomically_iff_of_full present full]
    constructor
    · intro atomic
      obtain ⟨taken, again⟩ := atomic
      exact .inr ⟨full, taken, root, present, again⟩
    · intro atomic
      rcases atomic with ⟨free, _⟩ | ⟨_, taken, other, found, again⟩
      · exact absurd full free
      · obtain rfl := Option.some.inj (present.symm.trans found)
        exact ⟨taken, again⟩
  · rw [mountsAtomically_iff_of_free full]
    constructor
    · intro safe
      exact .inl ⟨full, safe⟩
    · intro atomic
      rcases atomic with ⟨_, safe⟩ | ⟨none, _⟩
      · exact safe
      · exact absurd none full

/-! ## Runs of mounting calls -/

inductive RootOp where
  | mountRoot (texts : OptionTexts) (image : ImageSource)
  | mountMemfs (image : ImageSource) (parentInode : UInt32) (folder : CString)
  | mountPath (parentInode : UInt32) (folder target : CString)
  | unmountRoot

/-- The calls that mount and unmount, with what they return. `mountPath` is what
a mount rule with a path as its target comes down to. -/
def rootStep (parsers : OptionParsers) (loader : Loader) : Data.Machine Globals RootOp Int
  | .mountRoot texts image, g => mountRootMemfs parsers loader texts image g
  | .mountMemfs image parentInode folder, g => mountMemfs loader image parentInode folder g
  | .mountPath parentInode folder target, g =>
      (0, { g with mountTable := (g.mountTable.insert (parentInode, folder.chars) (.path target)).2 })
  | .unmountRoot, g => (0, unmountRootMemfs g)

def noParsers : OptionParsers where
  parseLevel _ := none
  parseSizeWithUnit _ := none
  toDouble _ := none
  parseMlockMode _ := none
  toSize _ := none

def emptyLoader : Loader where
  parseOffset _ := none
  openImage _ _ _ _ := some .unloaded

def noImage : ImageSource where
  data := []
  size := 0
  imageOffset := none

def rootMounted : Globals := (mountRootMemfs noParsers emptyLoader {} noImage .initial).2

def folderMounted : Globals := (mountMemfs emptyLoader noImage 0 (cStr ['a']) rootMounted).2

theorem first_folder_mounts_atomically :
    MountsAtomically emptyLoader noImage 0 (cStr ['a']) rootMounted ↔
      MountsSafely emptyLoader noImage 0 (cStr ['a']) rootMounted :=
  mountsAtomically_iff emptyLoader noImage 0 (cStr ['a']) rootMounted (by decide +kernel)

/-- A mount point that is taken: the call returns -1, and the image it loaded
stays behind in the memfs table. -/
theorem taken_mount_point_not_atomic :
    ¬ ∀ parsers loader g, Data.Machine.Reaches (rootStep parsers loader) (fun _ _ => True) .initial g →
      (0 : UInt32) ∈ g.memfsTable → ∀ image parentInode folder,
        MountsAtomically loader image parentInode folder g := by
  intro always
  have reached : Data.Machine.Reaches (rootStep noParsers emptyLoader) (fun _ _ => True) .initial
      folderMounted :=
    .step (RootOp.mountMemfs noImage 0 (cStr ['a']))
      (.step (RootOp.mountRoot {} noImage) .start trivial) trivial
  have returned : (mountMemfs emptyLoader noImage 0 (cStr ['a']) folderMounted).1 = -1 := by
    decide +kernel
  have leaked : (2 : UInt32) ∈
      (mountMemfs emptyLoader noImage 0 (cStr ['a']) folderMounted).2.memfsTable := by decide +kernel
  have free : (2 : UInt32) ∉ folderMounted.memfsTable := by decide +kernel
  have atomic := always noParsers emptyLoader folderMounted reached (by decide +kernel) noImage 0
    (cStr ['a'])
  have same : (mountMemfs emptyLoader noImage 0 (cStr ['a']) folderMounted).2 = folderMounted :=
    (mountsAtomically_of_result (Prod.ext returned rfl) (by decide)).mp atomic
  rw [same] at leaked
  exact free leaked

/-! ## Mounting a root image -/

/-- A file system of one image, the root, with nothing left from before. -/
structure CleanMount (loader : Loader) (image : ImageSource) (g : Globals) : Prop where
  memfsTable : g.memfsTable = Std.ExtTreeMap.insert (∅ : MemfsTable) 0
    ((makeMemfs g.options image.data image.size).load loader image.imageOffset).2
  mountTable : g.mountTable = ∅
  fdTable : g.fdTable = ∅
  dsTable : g.dsTable = ∅
  cwd : g.cwd = .init

/-- No image but a root image is mounted, and without one there are no mount
points, descriptors or directory streams either. -/
def Globals.RootOnly (g : Globals) : Prop :=
  (∀ index ∈ g.memfsTable, index = 0) ∧
    ((0 : UInt32) ∈ g.memfsTable ∨ g.mountTable = ∅ ∧ g.fdTable = ∅ ∧ g.dsTable = ∅)

theorem releaseRoot_memfsTable (g : Globals) :
    (releaseRoot g).memfsTable = Std.ExtTreeMap.erase g.memfsTable 0 := by
  unfold releaseRoot
  split
  · rfl
  · exact (erase_of_not_mem ‹_›).symm

theorem releaseRoot_tables (g : Globals) :
    (releaseRoot g).options = g.options ∧
      ((releaseRoot g).mountTable = ∅ ∧ (releaseRoot g).fdTable = ∅ ∧ (releaseRoot g).dsTable = ∅ ↔
        (0 : UInt32) ∈ g.memfsTable ∨ g.mountTable = ∅ ∧ g.fdTable = ∅ ∧ g.dsTable = ∅) := by
  unfold releaseRoot
  split
  · rename_i mounted
    exact ⟨rfl, fun _ => .inl mounted, fun _ => ⟨rfl, rfl, rfl⟩⟩
  · rename_i missing
    exact ⟨rfl, .inr, fun tables => tables.resolve_left missing⟩

theorem mountRootMemfs_of_set {parsers : OptionParsers} {texts : OptionTexts}
    {options : MemfsOptions} (set : setOptions (texts.setters parsers) g.options = (true, options)) :
    mountRootMemfs parsers loader texts image g =
      if ((makeMemfs options image.data image.size).load loader image.imageOffset).1 = 0 then
        (0, { releaseRoot { g with options := options } with
          memfsTable := Std.ExtTreeMap.insert (Std.ExtTreeMap.erase g.memfsTable 0) 0
            ((makeMemfs options image.data image.size).load loader image.imageOffset).2
          cwd := .init })
      else (-1, { releaseRoot { g with options := options } with
        memfsTable := Std.ExtTreeMap.erase g.memfsTable 0 }) := by
  have absent : (0 : UInt32) ∉ Std.ExtTreeMap.erase g.memfsTable 0 := by simp
  have held : (Std.ExtTreeMap.insert (Std.ExtTreeMap.erase g.memfsTable 0) 0
      (makeMemfs options image.data image.size))[(0 : UInt32)]? =
        some (makeMemfs options image.data image.size) := Std.ExtTreeMap.getElem?_insert_self
  simp only [mountRootMemfs, set, releaseRoot_memfsTable, MemfsTable.insert,
    insertIfNew_of_not_mem absent, MemfsTable.load, held, modify_of_getElem? held, insert_insert,
    erase_insert, erase_of_not_mem absent]

theorem set_of_success {parsers : OptionParsers} {texts : OptionTexts}
    (success : (mountRootMemfs parsers loader texts image g).1 = 0) :
    ∃ options, setOptions (texts.setters parsers) g.options = (true, options) ∧
      ((makeMemfs options image.data image.size).load loader image.imageOffset).1 = 0 := by
  cases set : setOptions (texts.setters parsers) g.options with
  | mk done options =>
      cases done with
      | false => simp [mountRootMemfs, set] at success
      | true =>
          rw [mountRootMemfs_of_set set] at success
          split at success
          · exact ⟨options, rfl, ‹_›⟩
          · cases success

theorem erase_eq_empty_iff {table : MemfsTable} :
    Std.ExtTreeMap.erase table (0 : UInt32) = ∅ ↔ ∀ index ∈ table, index = 0 := by
  constructor
  · intro empty index present
    by_contra other
    have kept : index ∈ Std.ExtTreeMap.erase table (0 : UInt32) := by
      exact mem_erase_iff.mpr ⟨other, present⟩
    rw [empty] at kept
    simp at kept
  · intro only
    apply Std.ExtTreeMap.ext_getElem?
    intro index
    rw [Std.ExtTreeMap.getElem?_erase, Std.ExtTreeMap.getElem?_empty]
    split
    · rfl
    · rename_i other
      apply Std.ExtTreeMap.getElem?_eq_none
      intro present
      exact other (by simp [only index present])

/-- A successful `mount_root_memfs` leaves what it leaves after unmounting, and
nothing else, exactly when no image is mounted beside the root image. -/
theorem mountRootMemfs_clean_iff (parsers : OptionParsers) (loader : Loader) (texts : OptionTexts)
    (image : ImageSource) (g : Globals)
    (success : (mountRootMemfs parsers loader texts image g).1 = 0) :
    CleanMount loader image (mountRootMemfs parsers loader texts image g).2 ∧
        (mountRootMemfs parsers loader texts image g).2 =
          (mountRootMemfs parsers loader texts image (unmountRootMemfs g)).2 ↔
      g.RootOnly := by
  obtain ⟨options, set, loaded⟩ := set_of_success success
  have result := @mountRootMemfs_of_set loader image g parsers texts options set
  rw [if_pos loaded] at result
  have again := @mountRootMemfs_of_set loader image (unmountRootMemfs g) parsers texts options set
  rw [if_pos loaded] at again
  obtain ⟨sameOptions, tables⟩ := releaseRoot_tables { g with options := options }
  obtain ⟨freshOptions, fresh⟩ := releaseRoot_tables { unmountRootMemfs g with options := options }
  have freshTables := fresh.mpr (.inr ⟨rfl, rfl, rfl⟩)
  have emptied : Std.ExtTreeMap.erase (unmountRootMemfs g).memfsTable 0 = ∅ :=
    erase_eq_empty_iff.mpr (by simp [unmountRootMemfs])
  rw [result, again]
  constructor
  · intro cleanly
    obtain ⟨clean, _⟩ := cleanly
    refine ⟨?_, tables.mp ⟨clean.mountTable, clean.fdTable, clean.dsTable⟩⟩
    intro index present
    by_contra other
    have kept : index ∈ (Std.ExtTreeMap.insert (∅ : MemfsTable) 0
        ((makeMemfs options image.data image.size).load loader image.imageOffset).2) := by
      have table := clean.memfsTable
      simp only [sameOptions] at table
      rw [← table]
      simp [present, Ne.symm other]
    simp [Ne.symm other] at kept
  · intro cleanly
    obtain ⟨only, before⟩ := cleanly
    have alone := erase_eq_empty_iff.mpr only
    obtain ⟨mountTable, fdTable, dsTable⟩ := tables.mpr before
    constructor
    · exact ⟨by simp only [alone, sameOptions], mountTable, fdTable, dsTable, rfl⟩
    · simp only [alone, emptied, mountTable, fdTable, dsTable, freshTables.1, freshTables.2.1,
        freshTables.2.2, sameOptions, freshOptions]

theorem first_root_clean :
    CleanMount emptyLoader noImage rootMounted ∧
        rootMounted =
          (mountRootMemfs noParsers emptyLoader {} noImage (unmountRootMemfs .initial)).2 ↔
      Globals.initial.RootOnly :=
  mountRootMemfs_clean_iff noParsers emptyLoader {} noImage .initial (by decide +kernel)

/-- Mounting a root image over another one keeps the images that were mounted
beside it; unmounting would have dropped them. -/
theorem remounted_root_not_clean :
    ¬ ∀ parsers loader g, Data.Machine.Reaches (rootStep parsers loader) (fun _ _ => True) .initial g →
      ∀ texts image, (mountRootMemfs parsers loader texts image g).1 = 0 →
        CleanMount loader image (mountRootMemfs parsers loader texts image g).2 ∧
          (mountRootMemfs parsers loader texts image g).2 =
            (mountRootMemfs parsers loader texts image (unmountRootMemfs g)).2 := by
  intro always
  have reached : Data.Machine.Reaches (rootStep noParsers emptyLoader) (fun _ _ => True) .initial
      folderMounted :=
    .step (RootOp.mountMemfs noImage 0 (cStr ['a']))
      (.step (RootOp.mountRoot {} noImage) .start trivial) trivial
  obtain ⟨clean, _⟩ := always noParsers emptyLoader folderMounted reached {} noImage (by decide +kernel)
  have kept : (1 : UInt32) ∈
      (mountRootMemfs noParsers emptyLoader {} noImage folderMounted).2.memfsTable := by decide +kernel
  rw [clean.memfsTable] at kept
  simp at kept

end Tebako
