import Tebako.Data.Machine
import Tebako.Data.OrderedMap
import Tebako.Memfs

namespace Tebako

open Data

/-! The table of loaded images, and the inode numbers that tell them apart. -/

abbrev MemfsTable := Std.ExtTreeMap UInt32 Memfs

def inoBits : UInt64 := 32

def fsBits : UInt64 := 1

def inoMask : UInt64 := (1 <<< (inoBits - fsBits)) - 1

def fsMask : UInt64 := (1 <<< fsBits) - 1

def getFsIndex (ino : UInt64) : UInt32 := ((ino >>> (inoBits - fsBits)) &&& fsMask).toUInt32

def getFsIno (ino : UInt64) : UInt64 := ino &&& inoMask

def fsInoFromFsAndIno (index : UInt32) (ino : UInt64) : UInt64 :=
  (index.toUInt64 <<< (inoBits - fsBits)) ||| getFsIno ino

namespace MemfsTable

/-- `emplace`: an entry that is there already stays. -/
def insert (table : MemfsTable) (index : UInt32) (fs : Memfs) : Bool × MemfsTable :=
  (decide (index ∉ table), table.insertIfNew index fs)

/-- The loop of `insert_auto` over the table, which iterates in key order. -/
def nextIndex : List (UInt32 × Memfs) → UInt32 → UInt32
  | [], index => index
  | (key, _) :: rest, index =>
      if index < key then index
      else if key = index then nextIndex rest (index + 1)
      else nextIndex rest index

def insertAuto (table : MemfsTable) (fs : Memfs) : UInt32 × MemfsTable :=
  let index := nextIndex table.toList 1
  if 7 < index then (0, table)
  else
    let fs := fs.setRootInode (fsInoFromFsAndIno index 0).toUInt32
    (index, table.insertIfNew index fs)

/-- `get(index)->load(image_offset)`, where there is such an image. -/
def load (table : MemfsTable) (loader : Loader) (imageOffset : Option CString) (index : UInt32) :
    Int × MemfsTable :=
  match table[index]? with
  | none => (0, table)
  | some fs => ((fs.load loader imageOffset).1,
      table.modify index fun fs => (fs.load loader imageOffset).2)

/-- The loop of `insert_auto` passes only over keys of the table. It comes out
with 0 when it has passed over all of them up to the last number. -/
theorem mem_of_lt_nextIndex {list : List (UInt32 × Memfs)} {index key : UInt32}
    (nonzero : index ≠ 0) (low : index ≤ key)
    (high : key < nextIndex list index ∨ nextIndex list index = 0) :
    ∃ fs, (key, fs) ∈ list := by
  induction list generalizing index with
  | nil =>
      simp only [nextIndex] at high
      grind
  | cons entry rest ih =>
      obtain ⟨head, held⟩ := entry
      simp only [nextIndex] at high
      split at high
      · grind
      · split at high
        · rename_i same
          subst same
          by_cases here : key = head
          · exact ⟨held, by simp [here]⟩
          · have room : head + 1 ≠ 0 := by grind
            obtain ⟨fs, member⟩ := ih room (by grind) high
            exact ⟨fs, by simp [member]⟩
        · obtain ⟨fs, member⟩ := ih nonzero low high
          exact ⟨fs, by simp [member]⟩

theorem nextIndex_not_mem {list : List (UInt32 × Memfs)} {index : UInt32}
    (sorted : list.Pairwise fun left right => left.1 < right.1)
    (result : nextIndex list index ≠ 0) :
    index ≤ nextIndex list index ∧ ∀ fs, (nextIndex list index, fs) ∉ list := by
  induction list generalizing index with
  | nil => exact ⟨UInt32.le_refl _, by simp⟩
  | cons entry rest ih =>
      obtain ⟨head, held⟩ := entry
      obtain ⟨above, sorted⟩ := List.pairwise_cons.mp sorted
      simp only [nextIndex] at result ⊢
      split
      · rename_i gap
        refine ⟨UInt32.le_refl _, fun fs member => ?_⟩
        rcases List.mem_cons.mp member with same | later
        · simp only [Prod.mk.injEq] at same
          exact absurd gap (by simp [same.1])
        · have further := above _ later
          grind
      · rename_i noGap
        rw [if_neg noGap] at result
        split
        · rename_i same
          subst same
          rw [if_pos rfl] at result
          -- a key 2 ^ 32 - 1 is the last one of the table
          have room : head + 1 ≠ 0 := by
            intro wrapped
            cases rest with
            | nil => exact result (by rw [nextIndex, wrapped])
            | cons next more =>
                have further := above next (by simp)
                grind
          obtain ⟨low, absent⟩ := ih sorted result
          refine ⟨by grind, fun fs member => ?_⟩
          rcases List.mem_cons.mp member with same | later
          · simp only [Prod.mk.injEq] at same
            grind
          · exact absent fs later
        · rename_i different
          rw [if_neg different] at result
          obtain ⟨low, absent⟩ := ih sorted result
          refine ⟨low, fun fs member => ?_⟩
          rcases List.mem_cons.mp member with same | later
          · simp only [Prod.mk.injEq] at same
            grind
          · exact absent fs later

theorem toList_sorted (table : MemfsTable) :
    table.toList.Pairwise fun left right => left.1 < right.1 := by
  exact table.ordered_keys_toList.imp fun less => compareOfLessAndEq_eq_lt.mp less

theorem mem_iff_exists_mem_toList {table : MemfsTable} {index : UInt32} :
    index ∈ table ↔ ∃ fs, (index, fs) ∈ table.toList := by
  simp only [Std.ExtTreeMap.mem_toList_iff_getElem?_eq_some,
    Std.ExtTreeMap.mem_iff_isSome_getElem?, Option.isSome_iff_exists]

theorem insertAuto_spec {table : MemfsTable} {fs : Memfs}
    (nonzero : (table.insertAuto fs).1 ≠ 0) :
    (table.insertAuto fs).1 ∉ table ∧ (table.insertAuto fs).1 ≤ 7 ∧
      (∀ key, 1 ≤ key → key < (table.insertAuto fs).1 → key ∈ table) ∧
      (table.insertAuto fs).2 = table.insertIfNew (table.insertAuto fs).1
        (fs.setRootInode (fsInoFromFsAndIno (table.insertAuto fs).1 0).toUInt32) := by
  simp only [insertAuto] at nonzero ⊢
  by_cases full : 7 < nextIndex table.toList 1
  · simp [full] at nonzero
  · rw [if_neg full] at nonzero ⊢
    refine ⟨?_, UInt32.not_lt.mp full, ?_, rfl⟩
    · rw [mem_iff_exists_mem_toList]
      exact fun ⟨fs, member⟩ => (nextIndex_not_mem table.toList_sorted nonzero).2 fs member
    · intro key low high
      exact mem_iff_exists_mem_toList.mpr (mem_of_lt_nextIndex (by decide) low (.inl high))

theorem mem_of_insertAuto_zero {table : MemfsTable} {fs : Memfs} {key : UInt32}
    (full : (table.insertAuto fs).1 = 0) (low : 1 ≤ key) (high : key ≤ 7) : key ∈ table := by
  rw [mem_iff_exists_mem_toList]
  refine mem_of_lt_nextIndex (show (1 : UInt32) ≠ 0 by decide) low ?_
  simp only [insertAuto] at full
  by_cases above : 7 < nextIndex table.toList 1
  · exact .inl (by grind)
  · rw [if_neg above] at full
    exact .inr full

end MemfsTable

def memfsCall (table : MemfsTable) (fn : Memfs → Except Errno α) (fsIndex : UInt32) :
    Except Errno α :=
  match table[fsIndex]? with
  | none => .error .ENOENT
  | some fs => fn fs

def rootMemfsCall (table : MemfsTable) (fn : Memfs → Except Errno α) : Except Errno α :=
  memfsCall table fn 0

def inodeMemfsCall (table : MemfsTable) (fn : Memfs → UInt32 → Except Errno α) (inode : UInt32) :
    Except Errno α :=
  match table[getFsIndex inode.toUInt64]? with
  | none => .error .ENOENT
  | some fs => fn fs inode

end Tebako
