import Tebako.MemfsTable

namespace Tebako

open Data Data.OrderedMap

/-! Inode numbers of several images mounted together.

An image reports its inode numbers with an offset, and every call that takes
such a number reads back from it which image to ask. -/

theorem getFsIndex_toNat (ino : UInt64) :
    (getFsIndex ino).toNat = ino.toNat / 2 ^ 31 % 2 := by
  have shifted : (ino >>> (inoBits - fsBits)).toNat = ino.toNat / 2 ^ 31 := by
    rw [UInt64.toNat_shiftRight, Nat.shiftRight_eq_div_pow]
    rfl
  have mask : fsMask.toNat = 2 ^ 1 - 1 := rfl
  rw [getFsIndex, UInt64.toNat_toUInt32, UInt64.toNat_and, shifted, mask,
    Nat.and_two_pow_sub_one_eq_mod]
  omega

theorem getFsIno_toNat (ino : UInt64) : (getFsIno ino).toNat = ino.toNat % 2 ^ 31 := by
  rw [getFsIno, UInt64.toNat_and]
  exact Nat.and_two_pow_sub_one_eq_mod _ 31

/-- The offset an image gets: of the index, one bit survives the cut to 32. -/
theorem fsInoFromFsAndIno_toNat (index : UInt32) :
    (fsInoFromFsAndIno index 0).toUInt32.toNat = index.toNat * 2 ^ 31 % 2 ^ 32 := by
  have clean : getFsIno 0 = 0 := rfl
  have shift : (inoBits - fsBits).toNat = 31 := rfl
  have range := index.toNat_lt
  rw [fsInoFromFsAndIno, clean, UInt64.or_zero, UInt64.toNat_toUInt32, UInt64.toNat_shiftLeft,
    shift, Nat.shiftLeft_eq, UInt32.toNat_toUInt64]
  simp only [Nat.reducePow, Nat.reduceMod]
  omega

/-- Every inode number the image reports leads back to `index` and to the
number the image knows it by. -/
def Decodes (index : UInt32) (fs : Memfs) : Prop :=
  ∀ view : InodeView, view.inodeNum < 2 ^ 31 →
    getFsIndex (fs.reported view).toUInt64 = index ∧
    getFsIno (fs.reported view).toUInt64 = view.inodeNum.toUInt64

theorem decodes_iff {index : UInt32} {fs : Memfs}
    (root : fs.dwarfsRootInode = (fsInoFromFsAndIno index 0).toUInt32) :
    Decodes index fs ↔ index ≤ 1 := by
  have offset := fsInoFromFsAndIno_toNat index
  rw [← root] at offset
  have reported : ∀ view : InodeView, (fs.reported view).toUInt64.toNat =
      (view.inodeNum.toNat + fs.dwarfsRootInode.toNat) % 2 ^ 32 := by
    intro view
    rw [UInt32.toNat_toUInt64, Memfs.reported, UInt32.toNat_add]
  constructor
  · intro decodes
    obtain ⟨same, _⟩ := decodes ⟨0⟩ (by decide)
    have level := congrArg UInt32.toNat same
    rw [getFsIndex_toNat, reported] at level
    rw [UInt32.le_iff_toNat_le]
    change index.toNat ≤ 1
    omega
  · intro first view range
    rw [UInt32.le_iff_toNat_le] at first
    rw [UInt32.lt_iff_toNat_lt] at range
    change index.toNat ≤ 1 at first
    change view.inodeNum.toNat < 2 ^ 31 at range
    constructor
    · apply UInt32.toNat.inj
      rw [getFsIndex_toNat, reported]
      omega
    · apply UInt64.toNat.inj
      rw [getFsIno_toNat, reported, UInt32.toNat_toUInt64]
      omega

/-- Whether the next image registered gets the index 1, or none at all. -/
def FirstSlotFree (table : MemfsTable) : Prop :=
  1 ∉ table ∨ ∀ index, 1 ≤ index → index ≤ 7 → index ∈ table

def RegistersDecodable (table : MemfsTable) (fs : Memfs) : Prop :=
  (table.insertAuto fs).1 ≠ 0 →
    ∃ registered, (table.insertAuto fs).2[(table.insertAuto fs).1]? = some registered ∧
      Decodes (table.insertAuto fs).1 registered

theorem insertAuto_eq_one_iff {table : MemfsTable} {fs : Memfs}
    (nonzero : (table.insertAuto fs).1 ≠ 0) : (table.insertAuto fs).1 = 1 ↔ FirstSlotFree table := by
  obtain ⟨absent, small, below, _⟩ := MemfsTable.insertAuto_spec nonzero
  constructor
  · intro one
    exact .inl (one ▸ absent)
  · intro room
    rcases room with free | full
    · by_contra other
      exact free (below 1 (UInt32.le_refl _) (by grind))
    · exact absurd (full _ (by grind) small) absent

theorem insertAuto_registered {table : MemfsTable} {fs : Memfs}
    (nonzero : (table.insertAuto fs).1 ≠ 0) :
    (table.insertAuto fs).2[(table.insertAuto fs).1]? =
      some (fs.setRootInode (fsInoFromFsAndIno (table.insertAuto fs).1 0).toUInt32) := by
  obtain ⟨absent, _, _, same⟩ := MemfsTable.insertAuto_spec nonzero
  rw [same, Std.ExtTreeMap.getElem?_insertIfNew, if_pos ⟨by simp, absent⟩]

theorem registersDecodable_iff (table : MemfsTable) (fs : Memfs) :
    RegistersDecodable table fs ↔ FirstSlotFree table := by
  by_cases nonzero : (table.insertAuto fs).1 = 0
  · have full : ∀ index, 1 ≤ index → index ≤ 7 → index ∈ table :=
      fun index low high => MemfsTable.mem_of_insertAuto_zero nonzero low high
    exact ⟨fun _ => .inr full, fun _ registered => absurd nonzero registered⟩
  · have registered := insertAuto_registered nonzero
    rw [← insertAuto_eq_one_iff nonzero]
    constructor
    · intro promised
      obtain ⟨other, found, decodes⟩ := promised nonzero
      obtain rfl := Option.some.inj (registered.symm.trans found)
      have first := (decodes_iff rfl).mp decodes
      grind
    · intro one _
      exact ⟨_, registered, (decodes_iff rfl).mpr (by rw [one]; exact UInt32.le_refl _)⟩

/-! ## Runs of the table -/

inductive TableOp where
  | insertRoot (opts : MemfsOptions) (data : List UInt8) (size : UInt32)
  | insertAuto (opts : MemfsOptions) (data : List UInt8) (size : UInt32)
  | load (loader : Loader) (imageOffset : Option CString) (index : UInt32)
  | erase (index : UInt32)
  | clear

/-- The calls that the library makes into the table. The answer is what
`insert_auto` returns; the other calls answer 0. -/
def tableStep : Machine MemfsTable TableOp UInt32
  | .insertRoot opts data size, table => (0, (table.insert 0 (makeMemfs opts data size)).2)
  | .insertAuto opts data size, table => table.insertAuto (makeMemfs opts data size)
  | .load loader imageOffset index, table => (0, (table.load loader imageOffset index).2)
  | .erase index, table => (0, Std.ExtTreeMap.erase table index)
  | .clear, _ => (0, ∅)

structure NamespacesSeparated (table : MemfsTable) : Prop where
  decodes : ∀ (index : UInt32) (fs : Memfs), table[index]? = some fs → Decodes index fs
  disjoint : ∀ (index other : UInt32) (fs otherFs : Memfs), table[index]? = some fs → table[other]? = some otherFs →
    index ≠ other → ∀ view otherView : InodeView, view.inodeNum < 2 ^ 31 →
      otherView.inodeNum < 2 ^ 31 → fs.reported view ≠ otherFs.reported otherView
  dispatch : ∀ (index : UInt32) (fs : Memfs), table[index]? = some fs → ∀ (α : Type) fn (view : InodeView),
    view.inodeNum < 2 ^ 31 →
      inodeMemfsCall table fn (fs.reported view) = (fn fs (fs.reported view) : Except Errno α)

theorem NamespacesSeparated.of_decodes {table : MemfsTable}
    (decodes : ∀ (index : UInt32) (fs : Memfs), table[index]? = some fs → Decodes index fs) :
    NamespacesSeparated table where
  decodes := decodes
  disjoint index other fs otherFs held otherHeld different view otherView range otherRange same := by
    obtain ⟨here, _⟩ := decodes index fs held view range
    obtain ⟨there, _⟩ := decodes other otherFs otherHeld otherView otherRange
    rw [same, there] at here
    exact different here.symm
  dispatch index fs held α fn view range := by
    obtain ⟨here, _⟩ := decodes index fs held view range
    simp only [inodeMemfsCall, here, held]

/-- Where images are registered in the first slot only: the root image at 0 and
at most one other, each with the offset of its index. -/
def FirstSlotsOnly (table : MemfsTable) : Prop :=
  ∀ (index : UInt32) (fs : Memfs), table[index]? = some fs →
    index ≤ 1 ∧ fs.dwarfsRootInode = (fsInoFromFsAndIno index 0).toUInt32

theorem firstSlotsOnly_insertIfNew {table : MemfsTable} {index : UInt32} {fs : Memfs}
    (only : FirstSlotsOnly table) (first : index ≤ 1)
    (root : fs.dwarfsRootInode = (fsInoFromFsAndIno index 0).toUInt32) :
    FirstSlotsOnly (table.insertIfNew index fs) := by
  intro other held found
  rw [Std.ExtTreeMap.getElem?_insertIfNew] at found
  split at found
  · rename_i new
    obtain rfl : index = other := by simpa using new.1
    obtain rfl := Option.some.inj found
    exact ⟨first, root⟩
  · exact only other held found

def TableOp.UsesFirstSlot (table : MemfsTable) : TableOp → Prop
  | .insertAuto _ _ _ => FirstSlotFree table
  | _ => True

theorem tableStep_firstSlotsOnly {table : MemfsTable} {op : TableOp} (only : FirstSlotsOnly table)
    (allowed : op.UsesFirstSlot table) : FirstSlotsOnly (tableStep op table).2 := by
  cases op with
  | insertRoot opts data size =>
      exact firstSlotsOnly_insertIfNew only (by decide) rfl
  | insertAuto opts data size =>
      have step : (tableStep (.insertAuto opts data size) table).2 =
          (table.insertAuto (makeMemfs opts data size)).2 := rfl
      by_cases full : (table.insertAuto (makeMemfs opts data size)).1 = 0
      · have present := MemfsTable.mem_of_insertAuto_zero full
          (show (1 : UInt32) ≤ 2 by decide) (by decide)
        obtain ⟨fs, found⟩ := Option.isSome_iff_exists.mp
          (Std.ExtTreeMap.mem_iff_isSome_getElem?.mp present)
        exact absurd (only 2 fs found).1 (by decide)
      · obtain ⟨_, _, _, same⟩ := MemfsTable.insertAuto_spec full
        have one := (insertAuto_eq_one_iff full).mpr allowed
        rw [step, same, one]
        exact firstSlotsOnly_insertIfNew only (UInt32.le_refl _) rfl
  | load loader imageOffset index =>
      have step : (tableStep (.load loader imageOffset index) table).2 =
          (table.load loader imageOffset index).2 := rfl
      rw [step, MemfsTable.load]
      cases loaded : table[index]? with
      | none => exact only
      | some fs =>
          intro other held found
          rw [Std.ExtTreeMap.getElem?_modify] at found
          split at found
          · rename_i same
            obtain rfl : index = other := by simpa using same
            obtain ⟨before, present, rfl⟩ := Option.map_eq_some_iff.mp found
            rw [(Memfs.load_same loader imageOffset before).1]
            exact only index before present
          · exact only other held found
  | erase index =>
      intro other fs found
      have step : (tableStep (.erase index) table).2 = Std.ExtTreeMap.erase table index := rfl
      rw [step] at found
      exact only other fs (getElem?_erase_iff.mp found).2
  | clear =>
      intro other fs found
      have step : (tableStep .clear table).2 = ∅ := rfl
      simp [step] at found

theorem FirstSlotsOnly.separated {table : MemfsTable} (only : FirstSlotsOnly table) :
    NamespacesSeparated table := by
  apply NamespacesSeparated.of_decodes
  intro index fs found
  obtain ⟨first, root⟩ := only index fs found
  exact (decodes_iff root).mpr first

/-- Images keep their inode numbers apart as long as each one is registered in
the first slot: a single bit of the number is left for the index. -/
theorem namespaces_separated_of_first_slot (table : MemfsTable) (fs : Memfs) :
    (RegistersDecodable table fs ↔ FirstSlotFree table) ∧
      (Machine.Reaches tableStep (fun table op => op.UsesFirstSlot table) ∅ table →
        NamespacesSeparated table) := by
  refine ⟨registersDecodable_iff table fs, fun reached => ?_⟩
  refine FirstSlotsOnly.separated (reached.invariant ?_ ?_)
  · intro index fs found
    simp at found
  · intro state op only allowed
    exact tableStep_firstSlotsOnly only allowed

/-- The table after mounting a root image and `count` images over it. -/
def mounted (count : Nat) : MemfsTable :=
  (List.replicate count (TableOp.insertAuto {} [] 0)).foldl (fun table op => (tableStep op table).2)
    (tableStep (.insertRoot {} [] 0) ∅).2

theorem one_image_separated : NamespacesSeparated (mounted 1) := by
  have root : Machine.Reaches tableStep (fun table op => op.UsesFirstSlot table) ∅ (mounted 0) :=
    .step (TableOp.insertRoot {} [] 0) .start trivial
  have free : FirstSlotFree (mounted 0) := .inl (by decide)
  exact (namespaces_separated_of_first_slot (mounted 1) (makeMemfs {} [] 0)).2
    (.step (TableOp.insertAuto {} [] 0) root free)

/-- The second image mounted over a root image reports its root directory as
inode 0, which is the root directory of the root image. -/
theorem second_image_not_decodable :
    ¬ ∀ table, Machine.Reaches tableStep (fun _ _ => True) ∅ table →
      ∀ fs, RegistersDecodable table fs := by
  intro always
  have root : Machine.Reaches tableStep (fun _ _ => True) ∅ (mounted 0) :=
    .step (TableOp.insertRoot {} [] 0) .start trivial
  have first : Machine.Reaches tableStep (fun _ _ => True) ∅ (mounted 1) :=
    .step (TableOp.insertAuto {} [] 0) root trivial
  obtain ⟨registered, found, decodes⟩ := always _ first (makeMemfs {} [] 0) (by decide)
  have index : ((mounted 1).insertAuto (makeMemfs {} [] 0)).1 = 2 := by decide
  have nonzero : ((mounted 1).insertAuto (makeMemfs {} [] 0)).1 ≠ 0 := by decide
  obtain rfl := Option.some.inj ((insertAuto_registered nonzero).symm.trans found)
  obtain ⟨lost, _⟩ := decodes ⟨0⟩ (by decide)
  rw [index] at lost
  exact absurd lost (by decide)

end Tebako
