import Tebako.MemfsTable

namespace Tebako

open Data Data.OrderedMap

/-! Slots of the memfs table: which index an image that is registered gets. -/

namespace MemfsTable

/-- `insert_auto` with the memfs it is called for, as the call leaves it. -/
def insertAutoPassed (table : MemfsTable) (fs : Memfs) : UInt32 × MemfsTable × Memfs :=
  let index := nextIndex table.toList 1
  if 7 < index then (0, table, fs)
  else
    let fs := fs.setRootInode (fsInoFromFsAndIno index 0).toUInt32
    (index, table.insertIfNew index fs, fs)

/-- What is expected of an allocation that answers `index` and leaves the table
`after` and the memfs `passed`. -/
structure AllocatesLeast (before : MemfsTable) (fs : Memfs) (index : UInt32) (after : MemfsTable)
    (passed : Memfs) : Prop where
  least : index ≠ 0 → 1 ≤ index ∧ index ≤ 7 ∧ index ∉ before ∧
    ∀ key, 1 ≤ key → key < index → key ∈ before
  entered : index ≠ 0 → after[index]? = some passed
  others : index ≠ 0 → ∀ key, key ≠ index → after[key]? = before[key]?
  full : index = 0 ↔ ∀ key, 1 ≤ key → key ≤ 7 → key ∈ before
  unchanged : index = 0 → after = before ∧ passed = fs

/-- No index above 0 is left. -/
def Exhausted (table : MemfsTable) : Prop := ∀ key, 1 ≤ key → key ∈ table

variable {table : MemfsTable} {fs : Memfs} {key : UInt32}

theorem insertAuto_eq_insertAutoPassed (table : MemfsTable) (fs : Memfs) :
    table.insertAuto fs = ((table.insertAutoPassed fs).1, (table.insertAutoPassed fs).2.1) := by
  simp only [insertAuto, insertAutoPassed]
  split <;> rfl

theorem nextIndex_eq_zero_iff : nextIndex table.toList 1 = 0 ↔ table.Exhausted := by
  constructor
  · intro zero key low
    exact mem_iff_exists_mem_toList.mpr (mem_of_lt_nextIndex (by decide) low (.inr zero))
  · intro exhausted
    by_contra nonzero
    obtain ⟨low, absent⟩ := nextIndex_not_mem table.toList_sorted nonzero
    obtain ⟨fs, member⟩ := mem_iff_exists_mem_toList.mp (exhausted _ low)
    exact absent fs member

theorem allocatesLeast_of_above (above : 7 < nextIndex table.toList 1) :
    AllocatesLeast table fs 0 table fs where
  least zero := absurd rfl zero
  entered zero := absurd rfl zero
  others zero := absurd rfl zero
  full := by
    refine ⟨fun _ key low high => mem_iff_exists_mem_toList.mpr ?_, fun _ => rfl⟩
    exact mem_of_lt_nextIndex (by decide) low (.inl (by grind))
  unchanged _ := ⟨rfl, rfl⟩

theorem allocatesLeast_of_free (passed : Memfs) (nonzero : nextIndex table.toList 1 ≠ 0)
    (low : nextIndex table.toList 1 ≤ 7) :
    AllocatesLeast table fs (nextIndex table.toList 1)
      (table.insertIfNew (nextIndex table.toList 1) passed) passed := by
  obtain ⟨first, absent⟩ := nextIndex_not_mem table.toList_sorted nonzero
  have free : nextIndex table.toList 1 ∉ table := by
    rw [mem_iff_exists_mem_toList]
    exact fun ⟨fs, member⟩ => absent fs member
  rw [insertIfNew_of_not_mem free]
  constructor
  · refine fun _ => ⟨first, low, free, fun key below above => mem_iff_exists_mem_toList.mpr ?_⟩
    exact mem_of_lt_nextIndex (by decide) below (.inl above)
  · exact fun _ => Std.ExtTreeMap.getElem?_insert_self
  · exact fun _ key different => getElem?_insert_ne different
  · exact ⟨fun zero => absurd zero nonzero, fun taken => absurd (taken _ first low) free⟩
  · exact fun zero => absurd zero nonzero

/-- Past the last index the search starts over at 0, which is below 8. -/
theorem insertAutoPassed_of_exhausted (exhausted : table.Exhausted) :
    table.insertAutoPassed fs = (0, table.insertIfNew 0 (fs.setRootInode 0), fs.setRootInode 0) := by
  have offset : (fsInoFromFsAndIno 0 0).toUInt32 = 0 := by decide
  simp only [insertAutoPassed, nextIndex_eq_zero_iff.mpr exhausted, offset]
  rfl

theorem allocatesLeast_of_exhausted_iff (exhausted : table.Exhausted) :
    AllocatesLeast table fs 0 (table.insertIfNew 0 (fs.setRootInode 0)) (fs.setRootInode 0) ↔
      0 ∈ table ∧ fs.dwarfsRootInode = 0 := by
  have root : fs.setRootInode 0 = fs ↔ fs.dwarfsRootInode = 0 := by
    obtain ⟨_, _, root, _, _⟩ := fs
    simp only [Memfs.setRootInode, Memfs.mk.injEq, true_and, and_true]
    exact eq_comm
  constructor
  · intro allocates
    obtain ⟨same, kept⟩ := allocates.unchanged rfl
    refine ⟨?_, root.mp kept⟩
    rw [← same, Std.ExtTreeMap.mem_insertIfNew]
    exact .inl rfl
  · intro held
    obtain ⟨present, zero⟩ := held
    rw [insertIfNew_of_mem present, root.mpr zero]
    constructor
    · exact fun nonzero => absurd rfl nonzero
    · exact fun nonzero => absurd rfl nonzero
    · exact fun nonzero => absurd rfl nonzero
    · exact ⟨fun _ key low _ => exhausted key low, fun _ => rfl⟩
    · exact fun _ => ⟨rfl, rfl⟩

/-- An image gets the least free index from 1 to 7, or nothing changes, except
when no index above 0 is left in a table without a root image, or for an image
that has a root inode. -/
theorem insertAuto_least_iff (table : MemfsTable) (fs : Memfs) :
    AllocatesLeast table fs (table.insertAutoPassed fs).1 (table.insertAutoPassed fs).2.1
        (table.insertAutoPassed fs).2.2 ↔
      ¬ (table.Exhausted ∧ (0 ∉ table ∨ fs.dwarfsRootInode ≠ 0)) := by
  by_cases exhausted : table.Exhausted
  · rw [insertAutoPassed_of_exhausted exhausted, allocatesLeast_of_exhausted_iff exhausted]
    simp only [exhausted, true_and, not_or, not_not, ne_eq]
  · have nonzero : nextIndex table.toList 1 ≠ 0 := fun zero =>
      exhausted (nextIndex_eq_zero_iff.mp zero)
    simp only [exhausted, false_and, not_false_eq_true, iff_true]
    rw [insertAutoPassed]
    by_cases above : 7 < nextIndex table.toList 1
    · rw [if_pos above]
      exact allocatesLeast_of_above above
    · rw [if_neg above]
      exact allocatesLeast_of_free _ nonzero (UInt32.not_lt.mp above)

/-- A table in which the first `count` indices above 0 have been inserted. -/
def filled (fs : Memfs) : Nat → MemfsTable
  | 0 => ∅
  | count + 1 => ((filled fs count).insert (UInt32.ofNat (count + 1)) fs).2

theorem mem_filled_iff {count : Nat} (range : count < 2 ^ 32) :
    key ∈ filled fs count ↔ 1 ≤ key.toNat ∧ key.toNat ≤ count := by
  induction count with
  | zero =>
      rw [filled]
      have absent : key ∉ (∅ : MemfsTable) := Std.ExtTreeMap.not_mem_empty
      simp only [absent, false_iff]
      omega
  | succ count ih =>
      have number : (UInt32.ofNat (count + 1)).toNat = count + 1 := UInt32.toNat_ofNat_of_lt' range
      have same : compare (UInt32.ofNat (count + 1)) key = .eq ↔ key.toNat = count + 1 := by
        rw [Std.LawfulEqCmp.compare_eq_iff_eq, ← UInt32.toNat_inj, number]
        exact eq_comm
      rw [filled, insert, Std.ExtTreeMap.mem_insertIfNew, ih (by omega), same]
      omega

theorem filled_exhausted (fs : Memfs) : (filled fs (2 ^ 32 - 1)).Exhausted := by
  intro key low
  rw [mem_filled_iff (by omega)]
  have positive := UInt32.le_iff_toNat_le.mp low
  have range := key.toNat_lt
  exact ⟨positive, by omega⟩

/-- With every index above 0 taken, an image is registered as the root image. -/
theorem exhausted_table_gets_root : ¬ ∀ (table : MemfsTable) (fs : Memfs),
    AllocatesLeast table fs (table.insertAutoPassed fs).1 (table.insertAutoPassed fs).2.1
      (table.insertAutoPassed fs).2.2 := by
  intro always
  have allocates := always (filled (makeMemfs {} [] 0) (2 ^ 32 - 1)) (makeMemfs {} [] 0)
  have exhausted := filled_exhausted (makeMemfs {} [] 0)
  rw [insertAutoPassed_of_exhausted exhausted, allocatesLeast_of_exhausted_iff exhausted,
    mem_filled_iff (by omega)] at allocates
  exact absurd allocates.1.1 (by decide)

end MemfsTable

end Tebako
