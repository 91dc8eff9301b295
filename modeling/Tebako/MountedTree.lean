import Tebako.MountRules
import Tebako.Namespace

namespace Tebako

open Data Data.OrderedMap

/-! Mounting and unmounting, and the tree that the images make up.

In whatever order images and folders are mounted, no image comes to be at two
places, or under itself. -/

/-- An image that is loaded is one as dwarfs makes them. -/
def Loader.LoadsWhole (loader : Loader) : Prop :=
  ∀ memfs imageOffset, (Memfs.load loader imageOffset memfs).1 = 0 →
    (Memfs.load loader imageOffset memfs).2.Whole

/-- An image is mounted while the slot that its inode numbers tell is free. -/
def RootOp.UsesFirstSlot (g : Globals) : RootOp → Prop
  | .mountMemfs _ _ _ => FirstSlotFree g.memfsTable
  | _ => True

structure Globals.Arranged (g : Globals) : Prop where
  slots : FirstSlotsOnly g.memfsTable
  whole : ∀ {index : UInt32} {memfs : Memfs}, g.memfsTable[index]? = some memfs → memfs.Whole
  targets : ∀ {point : TebakoMountPoint} {index : UInt32}, g.mountTable[point]? = some (.memfs index) →
    index = 1 ∧ (1 : UInt32) ∈ g.memfsTable
  once : ∀ {point other : TebakoMountPoint} {index : UInt32}, g.mountTable[point]? = some (.memfs index) →
    g.mountTable[other]? = some (.memfs index) → point = other

variable {g : Globals} {parsers : OptionParsers} {loader : Loader} {texts : OptionTexts} {image : ImageSource}
variable {parentInode index : UInt32} {folder target : CString} {memfs root : Memfs}

theorem Globals.Arranged.assembled (arranged : g.Arranged) (hostStat : CString → Except Errno FileStat) :
    (g.world hostStat).Assembled where
  images held := ⟨arranged.whole held, arranged.slots.separated.decodes _ _ held⟩
  once := arranged.once

/-- The root directory of the root image is an entry of no directory. -/
theorem Globals.Arranged.topmost (arranged : g.Arranged) {hostStat : CString → Except Errno FileStat}
    {pi : InodeView} (held : g.memfsTable[(0 : UInt32)]? = some root)
    (found : root.find root.dwarfsRootInode = some pi) (node : Node) (name : LexicalPath.Path) :
    (g.world hostStat).linkTree.child node name ≠ some (.inode 0 pi) := by
  intro child
  obtain ⟨index, above, memfs, rfl, there, entered⟩ := child_cases child
  generalize same : Node.inode 0 pi = below at entered
  cases entered with
  | own free entry =>
      cases same
      obtain rfl := Option.some.inj (held.symm.trans there)
      exact (arranged.whole held).topmost found entry
  | image dir mount rootHeld rootFound =>
      cases same
      exact absurd (arranged.targets mount).1 (by decide)
  | folder dir mount => cases same

/-- No image is mounted in a directory of its own. -/
def Globals.MountedElsewhere (g : Globals) : Prop :=
  ∀ (parent : UInt32) (name : LexicalPath.Path) (index : UInt32),
    g.mountTable[(parent, name)]? = some (.memfs index) → getFsIndex parent.toUInt64 ≠ index

/-- What is entered from an image that is mounted is not its root directory. -/
theorem Globals.Arranged.below (arranged : g.Arranged) (elsewhere : g.MountedElsewhere)
    {hostStat : CString → Except Errno FileStat} {pi : InodeView} {node : Node}
    (below : (g.world hostStat).linkTree.Below (.inode 1 pi) node) :
    (∃ target, node = .folder target) ∨ ∃ child, node = .inode 1 child ∧
      ∀ memfs, g.memfsTable[(1 : UInt32)]? = some memfs → memfs.find memfs.dwarfsRootInode ≠ some child := by
  have step : ∀ {pi : InodeView} {name : LexicalPath.Path} {next : Node},
      (g.world hostStat).linkTree.child (.inode 1 pi) name = some next →
      (∃ target, next = .folder target) ∨ ∃ child, next = .inode 1 child ∧
        ∀ memfs, g.memfsTable[(1 : UInt32)]? = some memfs → memfs.find memfs.dwarfsRootInode ≠ some child := by
    intro pi name next goes
    obtain ⟨index, above, memfs, same, held, entered⟩ := child_cases goes
    cases same
    have held : g.memfsTable[(1 : UInt32)]? = some memfs := held
    have whole := arranged.whole held
    cases entered with
    | @own child free found =>
        refine .inr ⟨child, rfl, fun other there root => ?_⟩
        obtain rfl := Option.some.inj (held.symm.trans there)
        exact whole.topmost root found
    | image dir mount rootHeld rootFound =>
        have decoded := (arranged.slots.separated.decodes _ _ held pi (whole.numbers dir)).1
        obtain ⟨rfl, _⟩ := arranged.targets mount
        exact absurd decoded (elsewhere _ _ _ mount)
    | folder dir mount => exact .inl ⟨_, rfl⟩
  induction below with
  | single entered =>
      obtain ⟨name, child⟩ := entered
      exact step child
  | tail _ entered ih =>
      obtain ⟨name, child⟩ := entered
      rcases ih with ⟨target, rfl⟩ | ⟨view, rfl, _⟩
      · cases child
      · exact step child

theorem Globals.Arranged.acyclic (arranged : g.Arranged) (elsewhere : g.MountedElsewhere)
    {hostStat : CString → Except Errno FileStat} {pi : InodeView} (held : g.memfsTable[index]? = some memfs)
    (found : memfs.find memfs.dwarfsRootInode = some pi) :
    ¬ (g.world hostStat).linkTree.Below (.inode index pi) (.inode index pi) := by
  intro below
  have slots : index = 0 ∨ index = 1 := by
    have first := (arranged.slots index memfs held).1
    grind
  rcases slots with rfl | rfl
  · obtain ⟨node, _, name, child⟩ := Relation.TransGen.tail'_iff.mp below
    exact arranged.topmost held found node name child
  · rcases arranged.below elsewhere below with ⟨target, same⟩ | ⟨child, same, other⟩
    · cases same
    · cases same
      exact other memfs held found

theorem Globals.arranged_empty (images : g.memfsTable = ∅) (mounts : g.mountTable = ∅) : g.Arranged where
  slots index memfs held := by simp [images] at held
  whole held := by simp [images] at held
  targets mount := by simp [mounts] at mount
  once mount := by simp [mounts] at mount

theorem firstSlotsOnly_erase {table : MemfsTable} (only : FirstSlotsOnly table) (index : UInt32) :
    FirstSlotsOnly (Std.ExtTreeMap.erase table index) :=
  fun other memfs held => only other memfs (getElem?_erase_iff.mp held).2

theorem firstSlotsOnly_insert {table : MemfsTable} (only : FirstSlotsOnly table) (first : index ≤ 1)
    (root : memfs.dwarfsRootInode = (fsInoFromFsAndIno index 0).toUInt32) :
    FirstSlotsOnly (Std.ExtTreeMap.insert table index memfs) := by
  intro other held found
  rw [Std.ExtTreeMap.getElem?_insert] at found
  split at found
  · rename_i same
    obtain rfl : index = other := by simpa using same
    obtain rfl := Option.some.inj found
    exact ⟨first, root⟩
  · exact only other held found

theorem Globals.Arranged.release (arranged : g.Arranged) : (releaseRoot g).Arranged := by
  have table := releaseRoot_memfsTable g
  have held : ∀ {index : UInt32} {memfs : Memfs}, (releaseRoot g).memfsTable[index]? = some memfs →
      g.memfsTable[index]? = some memfs := by
    intro index memfs found
    rw [table] at found
    exact (getElem?_erase_iff.mp found).2
  have points : (releaseRoot g).mountTable = ∅ ∨ (releaseRoot g).mountTable = g.mountTable ∧
      (releaseRoot g).memfsTable = g.memfsTable := by
    unfold releaseRoot
    split
    · exact .inl rfl
    · exact .inr ⟨rfl, rfl⟩
  refine ⟨table ▸ firstSlotsOnly_erase arranged.slots 0, fun found => arranged.whole (held found), ?_, ?_⟩
  · intro point index mount
    rcases points with none | ⟨same, images⟩
    · simp [none] at mount
    · rw [same] at mount
      rw [images]
      exact arranged.targets mount
  · intro point other index first second
    rcases points with none | ⟨same, _⟩
    · simp [none] at first
    · rw [same] at first second
      exact arranged.once first second

/-- An image is put in a slot that no mount point leads to. -/
theorem Globals.Arranged.register (arranged : g.Arranged) (first : index ≤ 1)
    (root : memfs.dwarfsRootInode = (fsInoFromFsAndIno index 0).toUInt32) (whole : memfs.Whole) :
    ({ g with memfsTable := Std.ExtTreeMap.insert g.memfsTable index memfs } : Globals).Arranged where
  slots := firstSlotsOnly_insert arranged.slots first root
  whole := by
    intro other held found
    rw [Std.ExtTreeMap.getElem?_insert] at found
    split at found
    · exact Option.some.inj found ▸ whole
    · exact arranged.whole found
  targets mount := by
    obtain ⟨one, present⟩ := arranged.targets mount
    exact ⟨one, by simp [present]⟩
  once := arranged.once

theorem Globals.Arranged.mountRoot (arranged : g.Arranged) (loads : loader.LoadsWhole) :
    (mountRootMemfs parsers loader texts image g).2.Arranged := by
  cases set : setOptions (texts.setters parsers) g.options with
  | mk done options =>
      have same : ({ g with options := options } : Globals).Arranged :=
        ⟨arranged.slots, arranged.whole, arranged.targets, arranged.once⟩
      cases done with
      | false =>
          simp only [mountRootMemfs, set]
          exact same
      | true =>
          have released := same.release
          rw [mountRootMemfs_of_set set]
          split
          · rename_i loaded
            have offset := (Memfs.load_same loader image.imageOffset (makeMemfs options image.data image.size)).1
            have mounted := released.register (show (0 : UInt32) ≤ 1 by decide) offset (loads _ _ loaded)
            rw [releaseRoot_memfsTable] at mounted
            exact ⟨mounted.slots, mounted.whole, mounted.targets, mounted.once⟩
          · have table := releaseRoot_memfsTable { g with options := options }
            have again : ({ releaseRoot { g with options := options } with
                memfsTable := Std.ExtTreeMap.erase g.memfsTable 0 } : Globals) =
                releaseRoot { g with options := options } := by rw [← table]
            rw [again]
            exact released

/-- With the first slot free, no image but the root image is mounted yet. -/
theorem Globals.Arranged.mountImage (arranged : g.Arranged) (loads : loader.LoadsWhole)
    (free : FirstSlotFree g.memfsTable) : (mountMemfs loader image parentInode folder g).2.Arranged := by
  have room : (1 : UInt32) ∉ g.memfsTable := by
    rcases free with absent | full
    · exact absent
    · obtain ⟨memfs, held⟩ := exists_of_mem (full 2 (by decide) (by decide))
      exact absurd (arranged.slots 2 memfs held).1 (by decide)
  have slot : g.nextSlot image ≠ 0 := fun none => room (nextSlot_eq_zero_iff.mp none 1 (by decide) (by decide))
  have one : g.nextSlot image = 1 := (insertAuto_eq_one_iff slot).mpr free
  have unused : ∀ {point : TebakoMountPoint} {index : UInt32}, g.mountTable[point]? ≠ some (.memfs index) :=
    fun mount => room (arranged.targets mount).2
  have loaded := @loadMemfs_of_free image g loader slot
  by_cases failed : ((g.registered image).load loader image.imageOffset).1 ≠ 0
  · rw [if_pos failed] at loaded
    rw [mountMemfs_of_failed loaded]
    exact arranged
  · rw [if_neg failed] at loaded
    rw [mountMemfs_of_load (nextSlot_target slot).2.1 loaded, one]
    have offset := (Memfs.load_same loader image.imageOffset (g.registered image)).1
    have numbered : (g.registered image).dwarfsRootInode = (fsInoFromFsAndIno 1 0).toUInt32 := by
      rw [← one]
      rfl
    have registered := arranged.register (UInt32.le_refl 1) (offset.trans numbered)
      (loads _ _ (not_not.mp failed))
    split
    · exact registered
    · refine ⟨registered.slots, registered.whole, ?_, ?_⟩
      · intro point index mount
        rw [Std.ExtTreeMap.getElem?_insert] at mount
        split at mount
        · cases mount
          exact ⟨rfl, by simp⟩
        · exact absurd mount unused
      · intro point other index first second
        rw [Std.ExtTreeMap.getElem?_insert] at first second
        split at first
        · rename_i here
          split at second
          · rename_i there
            rw [Std.LawfulEqCmp.compare_eq_iff_eq] at here there
            exact here.symm.trans there
          · exact absurd second unused
        · exact absurd first unused

theorem Globals.Arranged.mountPath (arranged : g.Arranged) :
    ({ g with mountTable := (g.mountTable.insert (parentInode, folder.chars) (.path target)).2 } : Globals).Arranged := by
  have kept : ∀ {point : TebakoMountPoint} {index : UInt32},
      (g.mountTable.insert (parentInode, folder.chars) (.path target)).2[point]? = some (.memfs index) →
      g.mountTable[point]? = some (.memfs index) := by
    intro point index mount
    rw [MountTable.insert, Std.ExtTreeMap.getElem?_insertIfNew] at mount
    split at mount
    · cases mount
    · exact mount
  exact ⟨arranged.slots, arranged.whole, fun mount => arranged.targets (kept mount),
    fun first second => arranged.once (kept first) (kept second)⟩

theorem arranged_of_reaches (loads : loader.LoadsWhole)
    (reached : Machine.Reaches (rootStep parsers loader) (fun g op => op.UsesFirstSlot g) .initial g) :
    g.Arranged := by
  refine reached.invariant (Globals.arranged_empty rfl rfl) ?_
  intro g op arranged allowed
  cases op with
  | mountRoot texts image => exact arranged.mountRoot loads
  | mountMemfs image parentInode folder => exact arranged.mountImage loads allowed
  | mountPath parentInode folder target => exact arranged.mountPath
  | unmountRoot => exact Globals.arranged_empty rfl rfl

/-- After any mounting and unmounting with a slot for each image, the images and
folders are a tree: each of its directories is entered in one place, nothing is
above the root directory of the root image, and no image is below itself unless it
is mounted in a directory of its own. -/
theorem mounting_keeps_tree (parsers : OptionParsers) (loader : Loader) (g : Globals)
    (hostStat : CString → Except Errno FileStat) (loads : loader.LoadsWhole)
    (reached : Machine.Reaches (rootStep parsers loader) (fun g op => op.UsesFirstSlot g) .initial g) :
    (g.world hostStat).Assembled ∧ (g.world hostStat).linkTree.Proper ∧
      (∀ root pi, g.memfsTable[(0 : UInt32)]? = some root → root.find root.dwarfsRootInode = some pi →
        ∀ node name, (g.world hostStat).linkTree.child node name ≠ some (.inode 0 pi)) ∧
      (g.MountedElsewhere → ∀ index memfs pi, g.memfsTable[index]? = some memfs →
        memfs.find memfs.dwarfsRootInode = some pi →
        ¬ (g.world hostStat).linkTree.Below (.inode index pi) (.inode index pi)) := by
  have arranged := arranged_of_reaches loads reached
  have assembled := arranged.assembled hostStat
  exact ⟨assembled, assembled.proper, fun root pi held found => arranged.topmost held found,
    fun elsewhere index memfs pi held found => arranged.acyclic elsewhere held found⟩

theorem dirEnv_loadsWhole : dirEnv.loader.LoadsWhole := by
  intro memfs imageOffset ready
  have image : (memfs.load dirEnv.loader imageOffset).2.fs = dirImage := by
    cases parsed : memfs.setImageOffsetStr dirEnv.loader imageOffset with
    | none => simp [Memfs.load, parsed] at ready
    | some loaded =>
        simp only [Memfs.load, parsed]
        rfl
  have placed : EntriesPlaced [⟨0, cStr ['d'], 0o040755, .empty⟩] := by
    intro entry member
    obtain rfl := List.mem_singleton.mp member
    exact ⟨by decide, by decide, ⟨0o040755, 0⟩, by rfl, by decide⟩
  exact whole_of_entries image (by decide) placed

def dirRooted : Globals := (rootStep noParsers dirEnv.loader (.mountRoot {} noImage) .initial).2

/-- An image with a directory `d`, and another one mounted in it. -/
def dirInDir : Globals := (rootStep noParsers dirEnv.loader (.mountMemfs noImage 1 (cStr ['m'])) dirRooted).2

theorem dirInDir_reached : Machine.Reaches (rootStep noParsers dirEnv.loader) (fun g op => op.UsesFirstSlot g)
    .initial dirInDir := by
  have root : Machine.Reaches (rootStep noParsers dirEnv.loader) (fun g op => op.UsesFirstSlot g) .initial
      dirRooted := .step (RootOp.mountRoot {} noImage) .start trivial
  exact .step (RootOp.mountMemfs noImage 1 (cStr ['m'])) root (.inl (by decide +kernel))

theorem dirInDir_elsewhere : dirInDir.MountedElsewhere := by
  intro parent name index mount
  have arranged := arranged_of_reaches dirEnv_loadsWhole dirInDir_reached
  obtain ⟨rfl, _⟩ := arranged.targets mount
  have there : dirInDir.mountTable[((1, ['m']) : TebakoMountPoint)]? = some (.memfs 1) := by decide +kernel
  cases arranged.once mount there
  decide

theorem dirInDir_tree :
    (dirInDir.world dirEnv.hostStat).Assembled ∧ (dirInDir.world dirEnv.hostStat).linkTree.Proper ∧
      (∀ root pi, dirInDir.memfsTable[(0 : UInt32)]? = some root → root.find root.dwarfsRootInode = some pi →
        ∀ node name, (dirInDir.world dirEnv.hostStat).linkTree.child node name ≠ some (.inode 0 pi)) ∧
      ∀ index memfs pi, dirInDir.memfsTable[index]? = some memfs → memfs.find memfs.dwarfsRootInode = some pi →
        ¬ (dirInDir.world dirEnv.hostStat).linkTree.Below (.inode index pi) (.inode index pi) := by
  have tree := mounting_keeps_tree noParsers dirEnv.loader dirInDir dirEnv.hostStat dirEnv_loadsWhole
    dirInDir_reached
  exact ⟨tree.1, tree.2.1, tree.2.2.1, tree.2.2.2 dirInDir_elsewhere⟩

end Tebako
