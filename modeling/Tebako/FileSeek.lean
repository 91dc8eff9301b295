import Tebako.FileReads

namespace Tebako

open Data Data.OrderedMap

/-! Moving within an open file: the arithmetic of `lseek`, and the positions that
it starts from. -/

namespace FdTable

/-- The signed values that the tests of `lseek` compute, before any of them wraps. -/
def guardSums (offset : Int) : List Int :=
  (if offset < 0 then [-offset] else []) ++ if 0 < offset then [offMax - offset] else []

/-- All signed values that `lseek` computes. The position is unsigned, the size is not. -/
def seekSums (fd : TebakoFd) (offset whence : Int) : List Int :=
  if whence = seekSet then []
  else if whence = seekCur then guardSums offset
  else if whence = seekEnd then
    guardSums offset ++ if (seek fd offset whence).1.errno = none then [fd.st.size + offset] else []
  else []

/-- The position that is asked for, over the integers. -/
def seekTarget (fd : TebakoFd) (offset whence : Int) : Option Int :=
  if whence = seekSet then some offset
  else if whence = seekCur then some (fd.pos + offset)
  else if whence = seekEnd then some (fd.st.size + offset)
  else none

/-- What `lseek` is for. -/
def sought (fd : TebakoFd) (target : Option Int) : CallResult × TebakoFd :=
  match target with
  | none => (.error .EINVAL, fd)
  | some pos =>
      if pos < 0 then (.error .EINVAL, fd)
      else if offMax < pos then (.error .EOVERFLOW, fd)
      else ({ ret := pos }, { fd with pos := pos.toNat })

def OffT (value : Int) : Prop := -2 ^ 63 ≤ value ∧ value ≤ offMax

/-- `lseek` does what it is for, and no signed value that it computes overflows. -/
structure SeeksExactly (table : FdTable) (vfd : Int) (fd : TebakoFd) (offset whence : Int) : Prop where
  result : table.lseek vfd offset whence = ((sought fd (seekTarget fd offset whence)).1,
    Std.ExtTreeMap.insert table vfd (sought fd (seekTarget fd offset whence)).2)
  sums : ∀ sum ∈ seekSums fd offset whence, OffT sum

/-- The offset has no opposite, and one is asked for. -/
def SeeksLowest (offset whence : Int) : Prop := offset = -2 ^ 63 ∧ (whence = seekCur ∨ whence = seekEnd)

section

variable {table : FdTable} {vfd offset whence : Int} {fd : TebakoFd}

theorem guardSums_offT (range : OffT offset) :
    (∀ sum ∈ guardSums offset, OffT sum) ↔ offset ≠ -2 ^ 63 := by
  obtain ⟨low, high⟩ := range
  unfold guardSums OffT
  constructor
  · intro sums lowest
    have opposite := sums (-offset) (by simp [lowest])
    unfold offMax at opposite
    omega
  · intro inside sum listed
    unfold offMax at high ⊢
    rcases List.mem_append.mp listed with down | up
    · split at down
      · obtain rfl := List.mem_singleton.mp down
        omega
      · cases down
    · split at up
      · obtain rfl := List.mem_singleton.mp up
        unfold offMax
        omega
      · cases up

theorem sizeT_of_fits {pos : Int} (nonneg : 0 ≤ pos) (high : pos ≤ offMax) : sizeT pos = pos.toNat := by
  unfold offMax at high
  rw [sizeT, Int.emod_eq_of_lt nonneg (by omega)]

theorem offT_of_fits {pos : Int} (nonneg : 0 ≤ pos) (high : pos ≤ offMax) : offT pos.toNat = pos := by
  unfold offMax at high
  rw [Int.toNat_of_nonneg nonneg, offT, Int.bmod_eq_of_le_mul_two] <;> omega

theorem moveBy_eq {base : Nat} {below : Prop} [Decidable below] (range : OffT offset)
    (inside : (base : Int) ≤ offMax) (refused : offset < 0 → (¬ below ↔ 0 ≤ base + offset)) :
    moveBy fd base offset below = sought fd (some (base + offset)) := by
  obtain ⟨low, high⟩ := range
  unfold moveBy sought
  simp only
  by_cases negative : (base : Int) + offset < 0
  · have down : offset < 0 := by omega
    have under : below := by
      by_contra inside
      have above := (refused down).mp inside
      omega
    rw [if_pos ⟨down, under⟩, if_pos negative]
  · have above : ¬ (offset < 0 ∧ below) := fun both => (refused both.1).mpr (by omega) both.2
    rw [if_neg above, if_neg negative]
    by_cases large : offMax < base + offset
    · rw [if_pos (by omega), if_pos large]
    · have fits : sizeT (base + offset) = (base + offset).toNat := sizeT_of_fits (by omega) (by omega)
      rw [if_neg (by omega), if_neg large, fits, offT_of_fits (by omega) (by omega)]

theorem cur_exact (range : OffT offset) (inside : (fd.pos : Int) ≤ offMax) :
    seek fd offset seekCur = sought fd (some (fd.pos + offset)) := by
  have notSet : seekCur ≠ seekSet := by decide
  rw [seek, if_neg notSet, if_pos rfl]
  refine moveBy_eq range inside fun down => ?_
  have refused := @cur_refused_iff offset fd.pos range.1 (Int.le_of_lt down)
  simpa only [down, forall_const] using refused

theorem end_exact (range : OffT offset) (inside : (fd.st.size : Int) ≤ offMax) (plain : offset ≠ -2 ^ 63) :
    seek fd offset seekEnd = sought fd (some (fd.st.size + offset)) := by
  have notSet : seekEnd ≠ seekSet := by decide
  have notCur : seekEnd ≠ seekCur := by decide
  rw [seek, if_neg notSet, if_neg notCur, if_pos rfl]
  refine moveBy_eq range inside fun down => ?_
  have refused := @end_refused_iff offset fd.st.size range.1 (Int.le_of_lt down)
  simpa only [down, forall_const, plain, or_false] using refused

theorem set_exact (range : OffT offset) : seek fd offset seekSet = sought fd (some offset) := by
  obtain ⟨_, high⟩ := range
  unfold seek sought
  rw [if_pos rfl]
  by_cases negative : offset < 0
  · simp only [negative, ↓reduceIte]
  · simp only [negative, ↓reduceIte, if_neg (Int.not_lt.mpr high)]
    rw [sizeT_of_fits (by omega) high]

theorem seek_exact (range : OffT offset) (position : (fd.pos : Int) ≤ offMax)
    (size : (fd.st.size : Int) ≤ offMax) (plain : ¬ SeeksLowest offset whence) :
    seek fd offset whence = sought fd (seekTarget fd offset whence) := by
  unfold seekTarget
  by_cases set : whence = seekSet
  · rw [if_pos set, set, set_exact range]
  · rw [if_neg set]
    by_cases cur : whence = seekCur
    · rw [if_pos cur, cur, cur_exact range position]
    · rw [if_neg cur]
      by_cases last : whence = seekEnd
      · rw [if_pos last, last, end_exact range size fun lowest => plain ⟨lowest, .inr last⟩]
      · rw [if_neg last]
        simp only [seek, set, cur, last, ↓reduceIte, sought]

/-- A target that is not refused is a sum that fits. -/
theorem sought_fits {pos : Int} (found : (sought fd (some pos)).1.errno = none) : OffT pos := by
  unfold sought at found
  simp only at found
  split at found
  · cases found
  · split at found
    · cases found
    · unfold OffT
      omega

theorem sums_exact (range : OffT offset) (size : (fd.st.size : Int) ≤ offMax)
    (plain : ¬ SeeksLowest offset whence) : ∀ sum ∈ seekSums fd offset whence, OffT sum := by
  unfold seekSums
  split
  · simp
  · split
    · rename_i cur
      exact (guardSums_offT range).mpr fun lowest => plain ⟨lowest, .inl cur⟩
    · split
      · rename_i last
        have other : offset ≠ -2 ^ 63 := fun lowest => plain ⟨lowest, .inr last⟩
        intro sum listed
        rcases List.mem_append.mp listed with guarded | added
        · exact (guardSums_offT range).mpr other sum guarded
        · split at added
          · rename_i moved
            rw [last, end_exact range size other] at moved
            obtain rfl := List.mem_singleton.mp added
            exact sought_fits moved
          · cases added
      · simp

theorem seeksExactly_iff (held : table[vfd]? = some fd) (range : OffT offset)
    (position : (fd.pos : Int) ≤ offMax) (size : (fd.st.size : Int) ≤ offMax) :
    SeeksExactly table vfd fd offset whence ↔ ¬ SeeksLowest offset whence := by
  constructor
  · intro exactly lowestOffset
    obtain ⟨lowest, kind⟩ := lowestOffset
    have sums := exactly.sums
    refine (guardSums_offT range).mp (fun sum listed => sums sum ?_) lowest
    unfold seekSums
    rcases kind with rfl | rfl
    · exact listed
    · exact List.mem_append_left _ listed
  · intro plain
    constructor
    · simp only [lseek, held, seek_exact range position size plain]
    · exact sums_exact range size plain

end

/-! ## The positions that are reached -/

/-- All positions are those of an `off_t`. -/
def Positioned (table : FdTable) : Prop :=
  ∀ (vfd : Int) fd, table[vfd]? = some fd → (fd.pos : Int) ≤ offMax

variable {table : FdTable} {memfsTable : MemfsTable} {vfd offset whence : Int} {fd : TebakoFd}

theorem Positioned.insert (positioned : table.Positioned) (fits : (fd.pos : Int) ≤ offMax) :
    Positioned (Std.ExtTreeMap.insert table vfd fd) := by
  intro other found there
  rcases getElem?_insert_iff.mp there with ⟨_, own⟩ | ⟨_, before⟩
  · cases own
    exact fits
  · exact positioned other found before

theorem Positioned.erase (positioned : table.Positioned) : Positioned (Std.ExtTreeMap.erase table vfd) := by
  intro other found there
  exact positioned other found (getElem?_erase_iff.mp there).2

theorem openFound_positioned {found : Except Errno Lookup} {flags : UInt32} {dup : Int}
    (positioned : table.Positioned) : (table.openFound found flags dup).2.Positioned := by
  unfold openFound
  split
  · split
    · exact positioned
    · split
      · exact positioned
      · split
        · exact positioned
        · split
          · exact positioned
          · exact positioned.insert (show ((0 : Nat) : Int) ≤ offMax by decide)
  · exact positioned
  · exact positioned

theorem inodeRead_bound {memfs : Memfs} {contents : UInt32 → List UInt8} {inode : UInt32} {nbyte pos : Nat}
    (reads : memfs.fs.ReadsFrom contents) (fits : (pos : Int) ≤ offMax)
    (some : 0 < (memfs.inodeRead inode nbyte (offT pos)).ret) :
    pos + (memfs.inodeRead inode nbyte (offT pos)).ret ≤ offMax := by
  have there : sizeT (offT pos) = pos := sizeT_offT (by unfold offMax at fits; omega)
  cases ran : memfs.fs.read (inode - memfs.dwarfsRootInode) nbyte pos with
  | error errno =>
      simp only [Memfs.inodeRead, there, ran] at some
      cases some
  | ok got =>
      have length := reads.length ran
      have size := reads.size (inode - memfs.dwarfsRootInode)
      have narrow : narrowInt got.length ≤ got.length := by
        rw [narrowInt, Int.bmod_def]
        omega
      simp only [Memfs.inodeRead, there, ran] at some ⊢
      split at some
      · cases some
      · rename_i counted
        rw [if_neg counted]
        simp only at some ⊢
        omega

end FdTable

/-- The methods of the table that change it. The state of the library and of the
host is arbitrary at each of them. -/
inductive FdMethod where
  | openFile (w : World) (fuel : Nat) (path : CString) (flags : UInt32) (dup : Int)
  | openAt (w : World) (fuel : Nat) (vfd : Int) (path : CString) (flags : UInt32) (dup : Int)
  | close (vfd : Int)
  | closeAll
  | read (memfsTable : MemfsTable) (vfd : Int) (nbyte : Nat)
  | readv (memfsTable : MemfsTable) (vfd : Int) (iov : Option (List Nat))
  | lseek (vfd : Int) (offset : Int64) (whence : Int)
  | flock (vfd : Int) (operation : BitVec 32)

/-- The result of the calls that have one. -/
def methodStep : Machine FdTable FdMethod (Option CallResult)
  | .openFile w fuel path flags dup, table => (none, (fdStep (.openFile w fuel path flags dup) table).2)
  | .openAt w fuel vfd path flags dup, table => (none, (fdStep (.openAt w fuel vfd path flags dup) table).2)
  | .close vfd, table => (none, (table.close vfd).2)
  | .closeAll, table => (none, table.closeAll)
  | .read memfsTable vfd nbyte, table => (table.read memfsTable vfd nbyte).map some id
  | .readv memfsTable vfd iov, table => (table.readv memfsTable vfd iov).map some id
  | .lseek vfd offset whence, table => (table.lseek vfd offset.toInt whence).map some id
  | .flock vfd operation, table => (table.flock vfd operation).map some id

/-- The images keep what dwarfs promises, and no offset without an opposite is
added. The size of a file is an `off_t`. -/
def FdMethod.Permitted (table : FdTable) : FdMethod → Prop
  | .read memfsTable _ _ => ∀ (index : UInt32) memfs, memfsTable[index]? = some memfs →
      ∃ contents, memfs.fs.ReadsFrom contents
  | .lseek vfd offset whence => ∀ fd, table[vfd]? = some fd →
      (fd.st.size : Int) ≤ offMax ∧ ¬ FdTable.SeeksLowest offset.toInt whence
  | .openFile _ _ _ _ _ => True
  | .openAt _ _ _ _ _ _ => True
  | .close _ => True
  | .closeAll => True
  | .readv _ _ _ => True
  | .flock _ _ => True

namespace FdTable

variable {table : FdTable} {memfsTable : MemfsTable} {vfd : Int} {fd : TebakoFd}

theorem open_positioned {w : World} {fuel : Nat} {path : CString} {flags : UInt32} {dup : Int}
    (positioned : table.Positioned) : (fdStep (.openFile w fuel path flags dup) table).2.Positioned := by
  cases opened : table.open w fuel path flags dup with
  | none => simpa only [fdStep, opened] using positioned
  | some result =>
      obtain ⟨found, _, rfl⟩ := Option.map_eq_some_iff.mp opened
      simp only [fdStep, opened]
      exact openFound_positioned positioned

theorem openat_positioned {w : World} {fuel : Nat} {path : CString} {flags : UInt32} {dup : Int}
    (positioned : table.Positioned) : (fdStep (.openAt w fuel vfd path flags dup) table).2.Positioned := by
  cases opened : table.openat w fuel vfd path flags dup with
  | none => simpa only [fdStep, opened] using positioned
  | some result =>
      simp only [fdStep, opened]
      simp only [openat] at opened
      split at opened
      · cases opened
        exact positioned
      · split at opened
        · cases opened
          exact positioned
        · split at opened
          · cases opened
            exact positioned
          · obtain ⟨found, _, rfl⟩ := Option.map_eq_some_iff.mp opened
            exact openFound_positioned positioned

theorem read_positioned {nbyte : Nat} (positioned : table.Positioned)
    (reads : ∀ (index : UInt32) memfs, memfsTable[index]? = some memfs →
      ∃ contents, memfs.fs.ReadsFrom contents) : (table.read memfsTable vfd nbyte).2.Positioned := by
  cases held : table[vfd]? with
  | none => simpa only [read, held] using positioned
  | some fd =>
      have fits := positioned vfd fd held
      simp only [read, held]
      split
      · rename_i counted
        cases mounted : memfsTable[getFsIndex fd.st.ino.toUInt32.toUInt64]? with
        | none =>
            simp only [dwarfsInodeRead, mounted] at counted
            cases counted
        | some memfs =>
            obtain ⟨contents, reads⟩ := reads _ memfs mounted
            simp only [dwarfsInodeRead, mounted] at counted ⊢
            have bound := inodeRead_bound reads fits counted
            refine positioned.insert ?_
            rw [sizeT_of_fits (by omega) bound, Int.toNat_of_nonneg (by omega)]
            exact bound
      · exact positioned

theorem ioError_lt : dwarfsIoError < 2 ^ 31 := by decide

/-- A count has passed through an `int`. -/
theorem inodeRead_lt {inode : UInt32} {size : Nat} {offset : Int} :
    (dwarfsInodeRead memfsTable inode size offset).ret < 2 ^ 31 := by
  cases mounted : memfsTable[getFsIndex inode.toUInt64]? with
  | none =>
      simp only [dwarfsInodeRead, mounted]
      exact ioError_lt
  | some memfs =>
      cases ran : memfs.fs.read (inode - memfs.dwarfsRootInode) size (sizeT offset) with
      | error errno =>
          simp only [dwarfsInodeRead, mounted, Memfs.inodeRead, ran]
          exact ioError_lt
      | ok bytes =>
          have range : narrowInt bytes.length < 2 ^ 31 := by
            rw [narrowInt, Int.bmod_def]
            omega
          simp only [dwarfsInodeRead, mounted, Memfs.inodeRead, ran]
          split
          · exact ioError_lt
          · simpa only using range

/-- The loop of `readv` tests the position before it moves it. -/
theorem scatter_positioned {inode : UInt32} {lens : List Nat} {pos : Nat} {result : CallResult}
    (fits : (pos : Int) ≤ offMax) : ((scatter memfsTable inode lens pos result).1 : Int) ≤ offMax := by
  induction lens generalizing pos result with
  | nil => exact fits
  | cons len rest ih =>
      simp only [scatter]
      split
      · split
        · exact fits
        · rename_i counted inside
          split
          · exact fits
          · have small := @inodeRead_lt memfsTable inode len (offT pos)
            have room : sizeT (offMax - (dwarfsInodeRead memfsTable inode len (offT pos)).ret) =
                (offMax - (dwarfsInodeRead memfsTable inode len (offT pos)).ret).toNat :=
              sizeT_of_fits (by unfold offMax; omega) (by omega)
            rw [room] at inside
            refine ih ?_
            rw [sizeT_of_fits (by omega) (by unfold offMax at *; omega)]
            unfold offMax at *
            omega
      · split <;> exact fits

theorem seek_positioned {offset whence : Int} (range : OffT offset) (position : (fd.pos : Int) ≤ offMax)
    (size : (fd.st.size : Int) ≤ offMax) (plain : ¬ SeeksLowest offset whence) :
    ((seek fd offset whence).2.pos : Int) ≤ offMax := by
  rw [seek_exact range position size plain]
  unfold sought
  split
  · exact position
  · split
    · exact position
    · split
      · exact position
      · simp only
        omega

theorem methodStep_positioned (op : FdMethod) (positioned : table.Positioned)
    (permitted : op.Permitted table) : (methodStep op table).2.Positioned := by
  cases op with
  | openFile w fuel path flags dup => exact open_positioned positioned
  | openAt w fuel vfd path flags dup => exact openat_positioned positioned
  | close vfd => exact positioned.erase
  | closeAll =>
      intro vfd fd there
      simp [methodStep, closeAll] at there
  | read memfsTable vfd nbyte => exact read_positioned positioned permitted
  | readv memfsTable vfd iov =>
      cases iov with
      | none => exact positioned
      | some lens =>
          cases held : table[vfd]? with
          | none =>
              simp only [methodStep, readv, held]
              exact positioned
          | some fd =>
              simp only [methodStep, readv, held]
              exact positioned.insert (scatter_positioned (positioned vfd fd held))
  | lseek vfd offset whence =>
      cases held : table[vfd]? with
      | none =>
          simp only [methodStep, lseek, held]
          exact positioned
      | some fd =>
          obtain ⟨size, plain⟩ := permitted fd held
          have range : OffT offset.toInt := ⟨offset.le_toInt, Int.le_sub_one_of_lt offset.toInt_lt⟩
          simp only [methodStep, lseek, held]
          exact positioned.insert (seek_positioned range (positioned vfd fd held) size plain)
  | flock vfd operation =>
      cases held : table[vfd]? with
      | none =>
          simp only [methodStep, flock, held]
          exact positioned
      | some fd =>
          simp only [methodStep, flock, held]
          exact positioned.insert (positioned vfd fd held)

end FdTable

/-- From every state that is reached without adding the lowest offset, `lseek` is
exact if and only if it does not add it either; and no position is above the
largest `off_t`. -/
theorem lseek_exact_iff (table : FdTable) (reached : Machine.Reaches methodStep
      (fun table op => op.Permitted table) ∅ table) (vfd : Int) (fd : TebakoFd)
    (held : table[vfd]? = some fd) (size : (fd.st.size : Int) ≤ offMax) :
    fd.pos < 2 ^ 63 ∧ ∀ (offset : Int64) (whence : Int),
      FdTable.SeeksExactly table vfd fd offset.toInt whence ↔
        ¬ FdTable.SeeksLowest offset.toInt whence := by
  have positioned : table.Positioned := by
    refine reached.invariant ?_ fun table op kept permitted =>
      FdTable.methodStep_positioned op kept permitted
    intro vfd fd there
    simp at there
  have position := positioned vfd fd held
  refine ⟨by unfold offMax at position; omega, fun offset whence => ?_⟩
  exact FdTable.seeksExactly_iff held ⟨offset.le_toInt, Int.le_sub_one_of_lt offset.toInt_lt⟩ position size

/-- An empty file, opened under the number 1. -/
def seekableTable : FdTable := (methodStep (.openFile oneFileWorld 9 (belowMountPoint ['f']) 0 1) ∅).2

def seekableFd : TebakoFd := ⟨⟨1, 0o100644, 0⟩, 0, 0, 1⟩

theorem seekable_held : seekableTable[(1 : Int)]? = some seekableFd := by decide +kernel

theorem seekable_reached :
    Machine.Reaches methodStep (fun table op => op.Permitted table) ∅ seekableTable :=
  .step (FdMethod.openFile oneFileWorld 9 (belowMountPoint ['f']) 0 1) .start trivial

/-- Going back by one from the start is refused. -/
theorem back_from_start_exact :
    seekableFd.pos < 2 ^ 63 ∧
      FdTable.SeeksExactly seekableTable 1 seekableFd (-1 : Int64).toInt FdTable.seekCur := by
  obtain ⟨position, exactly⟩ := lseek_exact_iff seekableTable seekable_reached 1 seekableFd
    seekable_held (by decide)
  refine ⟨position, (exactly (-1) FdTable.seekCur).mpr ?_⟩
  intro lowestOffset
  obtain ⟨lowest, _⟩ := lowestOffset
  exact absurd lowest (by decide)

/-- With the lowest offset, a position before the start of the file is returned. -/
theorem lowest_offset_not_refused : ¬ ∀ table : FdTable,
    Machine.Reaches methodStep (fun table op => op.Permitted table) ∅ table → ∀ (vfd : Int) fd,
      table[vfd]? = some fd → (fd.st.size : Int) ≤ offMax → ∀ (offset : Int64) (whence : Int),
      FdTable.SeeksExactly table vfd fd offset.toInt whence := by
  intro always
  have exactly := always seekableTable seekable_reached 1 seekableFd seekable_held (by decide)
    Int64.minValue FdTable.seekEnd
  have returned := congrArg (fun result => result.1.ret) exactly.result
  have negative : (seekableTable.lseek 1 Int64.minValue.toInt FdTable.seekEnd).1.ret = -2 ^ 63 := by
    simp only [FdTable.lseek, seekable_held]
    decide
  have refused : (FdTable.sought seekableFd (FdTable.seekTarget seekableFd Int64.minValue.toInt
      FdTable.seekEnd)).1.ret = -1 := by decide
  rw [negative, refused] at returned
  cases returned

end Tebako
