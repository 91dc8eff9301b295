import Tebako.Dirent

namespace Tebako

open Data.OrderedMap

/-! Reading from an open file of a memfs, and moving within it.

Positions are `uint64_t`, offsets `off_t`; where the source mixes them the value
is converted as C++ does it, and a signed sum that overflows wraps. -/

/-- The value of a number after conversion to `off_t`. -/
def offT (value : Int) : Int := value.bmod (2 ^ 64)

theorem sizeT_offT {pos : Nat} (short : pos < 2 ^ 64) : sizeT (offT pos) = pos := by
  have range : (pos : Int).bmod (2 ^ 64) % 2 ^ 64 = pos := by
    rw [Int.bmod_def]
    omega
  rw [sizeT, offT, range, Int.toNat_natCast]

/-- The largest `off_t`, and the largest `ssize_t`. -/
def offMax : Int := 2 ^ 63 - 1

/-- What a call returns, the error number that it sets, and what it has stored
in its buffer. -/
structure CallResult where
  ret : Int
  errno : Option Errno := none
  stored : List UInt8 := []
deriving DecidableEq

def CallResult.invalidFd : CallResult where ret := dwarfsInvalidFd

def CallResult.error (errno : Errno) : CallResult where
  ret := dwarfsIoError
  errno := some errno

theorem ioError_ne_invalidFd : dwarfsIoError ≠ dwarfsInvalidFd := by decide

theorem CallResult.error_ret {errno : Errno} : (CallResult.error errno).ret ≠ dwarfsInvalidFd :=
  ioError_ne_invalidFd

/-- The count passes through an `int`. -/
def Memfs.inodeRead (memfs : Memfs) (inode : UInt32) (size : Nat) (offset : Int) : CallResult :=
  match memfs.fs.read (inode - memfs.dwarfsRootInode) size (sizeT offset) with
  | .error errno => .error errno
  | .ok bytes =>
      let err := narrowInt bytes.length
      if err < 0 then { ret := dwarfsIoError, errno := some (.other (narrowInt (-err))), stored := bytes }
      else { ret := err, stored := bytes }

def dwarfsInodeRead (memfsTable : MemfsTable) (inode : UInt32) (size : Nat) (offset : Int) : CallResult :=
  match memfsTable[getFsIndex inode.toUInt64]? with
  | none => .error .ENOENT
  | some memfs => memfs.inodeRead inode size offset

namespace FdTable

def read (memfsTable : MemfsTable) (vfd : Int) (nbyte : Nat) (table : FdTable) : CallResult × FdTable :=
  match table[vfd]? with
  | none => (.invalidFd, table)
  | some fd =>
      let result := dwarfsInodeRead memfsTable fd.st.ino.toUInt32 nbyte (offT fd.pos)
      if 0 < result.ret then
        (result, Std.ExtTreeMap.insert table vfd { fd with pos := sizeT (fd.pos + result.ret) })
      else (result, table)

def pread (memfsTable : MemfsTable) (vfd : Int) (nbyte : Nat) (offset : Int) (table : FdTable) :
    CallResult :=
  match table[vfd]? with
  | none => .invalidFd
  | some fd => dwarfsInodeRead memfsTable fd.st.ino.toUInt32 nbyte offset

/-- The loop of `readv` over the lengths of the buffers. -/
def scatter (memfsTable : MemfsTable) (inode : UInt32) : List Nat → Nat → CallResult → Nat × CallResult
  | [], pos, result => (pos, result)
  | len :: rest, pos, result =>
      let next := dwarfsInodeRead memfsTable inode len (offT pos)
      let stored := result.stored ++ next.stored
      if 0 < next.ret then
        if sizeT (offMax - next.ret) < pos then
          (pos, { ret := dwarfsIoError, errno := some .EOVERFLOW, stored := stored })
        else if offMax - next.ret < result.ret then
          (pos, { ret := dwarfsIoError, errno := some .EINVAL, stored := stored })
        else
          scatter memfsTable inode rest (sizeT (pos + next.ret))
            { result with ret := result.ret + next.ret, stored := stored }
      else if next.ret < 0 then (pos, { next with ret := dwarfsIoError, stored := stored })
      else (pos, { result with stored := stored })

/-- `iov` are the lengths of the buffers, or nothing for a count below 0. -/
def readv (memfsTable : MemfsTable) (vfd : Int) (iov : Option (List Nat)) (table : FdTable) :
    CallResult × FdTable :=
  match iov with
  | none => (.error .EINVAL, table)
  | some lens =>
      match table[vfd]? with
      | none => (.invalidFd, table)
      | some fd =>
          let (pos, result) := scatter memfsTable fd.st.ino.toUInt32 lens fd.pos { ret := 0 }
          (result, Std.ExtTreeMap.insert table vfd { fd with pos := pos })

/-- Moves to `base + offset`, for `SEEK_CUR` and `SEEK_END`. The first test
compares as the type of `base` asks for. -/
def moveBy (fd : TebakoFd) (base : Nat) (offset : Int) (below : Prop) [Decidable below] :
    CallResult × TebakoFd :=
  if offset < 0 ∧ below then (.error .EINVAL, fd)
  else if 0 < offset ∧ offMax - offset < base then (.error .EOVERFLOW, fd)
  else
    let pos := sizeT (base + offset)
    ({ ret := offT pos }, { fd with pos := pos })

def seekSet : Int := 0

def seekCur : Int := 1

def seekEnd : Int := 2

/-- `lseek` on the descriptor it finds. -/
def seek (fd : TebakoFd) (offset whence : Int) : CallResult × TebakoFd :=
  if whence = seekSet then
    if offset < 0 then (.error .EINVAL, fd)
    else ({ ret := offset }, { fd with pos := sizeT offset })
  else if whence = seekCur then moveBy fd fd.pos offset (fd.pos < sizeT (-offset))
  else if whence = seekEnd then moveBy fd fd.st.size offset (fd.st.size < offT (-offset))
  else (.error .EINVAL, fd)

def lseek (vfd offset whence : Int) (table : FdTable) : CallResult × FdTable :=
  match table[vfd]? with
  | none => (.invalidFd, table)
  | some fd => ((seek fd offset whence).1, Std.ExtTreeMap.insert table vfd (seek fd offset whence).2)

def lockNb : BitVec 32 := 4

def lockUn : BitVec 32 := 8

/-- The lock is stored, and means nothing. -/
def flock (vfd : Int) (operation : BitVec 32) (table : FdTable) : CallResult × FdTable :=
  match table[vfd]? with
  | none => (.invalidFd, table)
  | some fd => ({ ret := dwarfsIoContinue }, Std.ExtTreeMap.insert table vfd
      { fd with lock := (operation &&& ~~~(lockNb ||| lockUn)).toInt })

/-- All positions and locks aside, the table is the same. -/
def SameHandles (before after : FdTable) : Prop :=
  ∀ vfd : Int, after[vfd]?.map (·.handle) = before[vfd]?.map (·.handle)

/-- The position to move to is the one that `DWARFS_INVALID_FD` stands for. -/
def SeeksSentinel (fd : TebakoFd) (offset whence : Int) : Prop :=
  offset ≤ 0 ∧
    (whence = seekCur ∧ 0 ≤ fd.pos + offset ∧ sizeT (fd.pos + offset) = 2 ^ 64 - 2 ∨
      whence = seekEnd ∧ (0 ≤ fd.st.size + offset ∨ offset = -2 ^ 63) ∧
        sizeT (fd.st.size + offset) = 2 ^ 64 - 2)

section

variable {memfsTable : MemfsTable} {table : FdTable} {vfd offset whence : Int} {fd other : TebakoFd}

theorem sameHandles_refl : SameHandles table table := fun _ => rfl

theorem sameHandles_insert (held : table[vfd]? = some fd) (same : other.handle = fd.handle) :
    SameHandles table (Std.ExtTreeMap.insert table vfd other) := by
  intro number
  by_cases here : number = vfd
  · rw [here, held, Std.ExtTreeMap.getElem?_insert_self, Option.map_some, Option.map_some, same]
  · rw [getElem?_insert_ne here]

theorem dwarfsInodeRead_ret {inode : UInt32} {size : Nat} :
    (dwarfsInodeRead memfsTable inode size offset).ret ≠ dwarfsInvalidFd := by
  cases held : memfsTable[getFsIndex inode.toUInt64]? with
  | none =>
      simp only [dwarfsInodeRead, held]
      exact CallResult.error_ret
  | some memfs =>
      cases ran : memfs.fs.read (inode - memfs.dwarfsRootInode) size (sizeT offset) with
      | error errno =>
          simp only [dwarfsInodeRead, held, Memfs.inodeRead, ran]
          exact CallResult.error_ret
      | ok bytes =>
          simp only [dwarfsInodeRead, held, Memfs.inodeRead, ran, dwarfsIoError, dwarfsInvalidFd]
          split
          · simp
          · simp only
            omega

theorem read_sameHandles {nbyte : Nat} : SameHandles table (table.read memfsTable vfd nbyte).2 := by
  cases held : table[vfd]? with
  | none =>
      simp only [read, held]
      exact sameHandles_refl
  | some fd =>
      simp only [read, held]
      split
      · exact sameHandles_insert held rfl
      · exact sameHandles_refl

theorem readv_sameHandles {iov : Option (List Nat)} :
    SameHandles table (table.readv memfsTable vfd iov).2 := by
  cases iov with
  | none => exact sameHandles_refl
  | some lens =>
      cases held : table[vfd]? with
      | none =>
          simp only [readv, held]
          exact sameHandles_refl
      | some fd =>
          simp only [readv, held]
          exact sameHandles_insert held rfl

theorem flock_sameHandles {operation : BitVec 32} : SameHandles table (table.flock vfd operation).2 := by
  cases held : table[vfd]? with
  | none =>
      simp only [flock, held]
      exact sameHandles_refl
  | some fd =>
      simp only [flock, held]
      exact sameHandles_insert held rfl

theorem moveBy_handle {base : Nat} {below : Prop} [Decidable below] :
    (moveBy fd base offset below).2.handle = fd.handle := by
  unfold moveBy
  split
  · rfl
  · split <;> rfl

theorem seek_handle : (seek fd offset whence).2.handle = fd.handle := by
  unfold seek
  split
  · split <;> rfl
  · split
    · exact moveBy_handle
    · split
      · exact moveBy_handle
      · rfl

theorem lseek_sameHandles : SameHandles table (table.lseek vfd offset whence).2 := by
  cases held : table[vfd]? with
  | none =>
      simp only [lseek, held]
      exact sameHandles_refl
  | some fd =>
      simp only [lseek, held]
      exact sameHandles_insert held seek_handle

theorem offT_sizeT {value : Int} : offT (sizeT value) = -2 ↔ sizeT value = 2 ^ 64 - 2 := by
  have low : (0 : Int) ≤ sizeT value := Int.natCast_nonneg _
  have high : (sizeT value : Int) < 2 ^ 64 := by
    rw [sizeT, Int.toNat_of_nonneg (Int.emod_nonneg _ (by decide))]
    exact Int.emod_lt_of_pos _ (by decide)
  rw [offT, Int.bmod_def]
  omega

theorem moveBy_invalid_iff {base : Nat} {below : Prop} [Decidable below] :
    (moveBy fd base offset below).1.ret = dwarfsInvalidFd ↔
      offset ≤ 0 ∧ (offset < 0 → ¬ below) ∧ sizeT (base + offset) = 2 ^ 64 - 2 := by
  unfold moveBy
  split
  · rename_i refused
    constructor
    · intro same
      exact absurd same CallResult.error_ret
    · intro refused
      obtain ⟨_, inside, _⟩ := refused
      exact absurd refused.2 (inside refused.1)
  · rename_i inside
    split
    · rename_i large
      constructor
      · intro same
        exact absurd same CallResult.error_ret
      · intro refused
        obtain ⟨down, _⟩ := refused
        omega
    · rename_i fits
      have same := @offT_sizeT (base + offset)
      simp only [dwarfsInvalidFd, same]
      constructor
      · intro sentinel
        refine ⟨?_, fun down low => inside ⟨down, low⟩, sentinel⟩
        by_contra up
        have exact := @sizeT_cast (base + offset) (by omega) (by unfold offMax at fits; omega)
        unfold offMax at fits
        omega
      · exact fun all => all.2.2

/-! A descriptor of the table is never one for the host, but for a position. -/

theorem read_ret {nbyte : Nat} (held : table[vfd]? = some fd) :
    (table.read memfsTable vfd nbyte).1.ret ≠ dwarfsInvalidFd := by
  simp only [read, held]
  split <;> exact dwarfsInodeRead_ret

theorem pread_ret {nbyte : Nat} (held : table[vfd]? = some fd) :
    (table.pread memfsTable vfd nbyte offset).ret ≠ dwarfsInvalidFd := by
  simp only [pread, held]
  exact dwarfsInodeRead_ret

theorem scatter_ret {inode : UInt32} {lens : List Nat} {pos : Nat} {result : CallResult}
    (counted : 0 ≤ result.ret) :
    (scatter memfsTable inode lens pos result).2.ret ≠ dwarfsInvalidFd := by
  induction lens generalizing pos result with
  | nil =>
      simp only [scatter, dwarfsInvalidFd]
      omega
  | cons len rest ih =>
      simp only [scatter]
      split
      · rename_i read
        split
        · exact ioError_ne_invalidFd
        · split
          · exact ioError_ne_invalidFd
          · exact ih (Int.add_nonneg counted (Int.le_of_lt read))
      · split
        · exact ioError_ne_invalidFd
        · simp only [dwarfsInvalidFd]
          omega

theorem readv_ret {iov : Option (List Nat)} (held : table[vfd]? = some fd) :
    (table.readv memfsTable vfd iov).1.ret ≠ dwarfsInvalidFd := by
  cases iov with
  | none => exact CallResult.error_ret
  | some lens =>
      simp only [readv, held]
      exact scatter_ret (Int.le_refl 0)

theorem flock_ret {operation : BitVec 32} (held : table[vfd]? = some fd) :
    (table.flock vfd operation).1.ret ≠ dwarfsInvalidFd := by
  simp only [flock, held]
  decide

/-- The position is refused where it would be negative. -/
theorem cur_refused_iff {base : Nat} (low : -2 ^ 63 ≤ offset) (down : offset ≤ 0) :
    (offset < 0 → ¬ base < sizeT (-offset)) ↔ 0 ≤ base + offset := by
  have opposite := @sizeT_cast (-offset) (by omega) (by omega)
  constructor
  · intro inside
    by_cases negative : offset < 0
    · have above := inside negative
      omega
    · omega
  · intro inside _
    omega

/-- The smallest offset is its own opposite, so that it is not refused. -/
theorem end_refused_iff {base : Nat} (low : -2 ^ 63 ≤ offset) (down : offset ≤ 0) :
    (offset < 0 → ¬ (base : Int) < offT (-offset)) ↔ 0 ≤ base + offset ∨ offset = -2 ^ 63 := by
  rw [offT, Int.bmod_def]
  constructor
  · intro inside
    by_cases negative : offset < 0
    · have above := inside negative
      omega
    · omega
  · intro inside _
    omega

theorem seek_invalid_iff (low : -2 ^ 63 ≤ offset) :
    (seek fd offset whence).1.ret = dwarfsInvalidFd ↔ SeeksSentinel fd offset whence := by
  unfold seek SeeksSentinel
  by_cases set : whence = seekSet
  · subst set
    have notCur : seekSet ≠ seekCur := by decide
    have notEnd : seekSet ≠ seekEnd := by decide
    simp only [↓reduceIte, notCur, notEnd, false_and, or_false, and_false, iff_false]
    split
    · exact CallResult.error_ret
    · rename_i up
      simp only [dwarfsInvalidFd]
      omega
  · rw [if_neg set]
    by_cases cur : whence = seekCur
    · subst cur
      have notEnd : seekCur ≠ seekEnd := by decide
      rw [if_pos rfl, moveBy_invalid_iff]
      simp only [notEnd, false_and, or_false, true_and]
      exact and_congr_right fun down => and_congr_left fun _ => cur_refused_iff low down
    · rw [if_neg cur]
      by_cases last : whence = seekEnd
      · subst last
        rw [if_pos rfl, moveBy_invalid_iff]
        simp only [cur, false_and, false_or, true_and]
        exact and_congr_right fun down => and_congr_left fun _ => end_refused_iff low down
      · simp only [cur, last, false_and, or_false, and_false, iff_false]
        exact CallResult.error_ret

theorem lseek_ret (held : table[vfd]? = some fd) (low : -2 ^ 63 ≤ offset)
    (plain : ¬ SeeksSentinel fd offset whence) :
    (table.lseek vfd offset whence).1.ret ≠ dwarfsInvalidFd := by
  simp only [lseek, held]
  exact fun same => plain ((seek_invalid_iff low).mp same)

end

end FdTable

end Tebako
