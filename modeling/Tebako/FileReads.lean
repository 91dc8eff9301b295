import Mathlib.Data.List.SplitLengths
import Tebako.Ownership

namespace Tebako

open Data Data.OrderedMap

/-! How many bytes a call of `read` says that it has stored.

dwarfs counts them in an `ssize_t`, and so do the callers of the library; in
between the count passes through an `int`. -/

/-- What dwarfs promises: a read stores the bytes from the offset on, as many as
are asked for and are there. The size of a file is an `off_t`. -/
structure Dwarfs.ReadsFrom (fs : Dwarfs) (contents : UInt32 → List UInt8) : Prop where
  read : ∀ {inode : UInt32} {size offset : Nat} {got : List UInt8}, fs.read inode size offset = .ok got →
    got = ((contents inode).drop offset).take size
  size : ∀ inode, ((contents inode).length : Int) ≤ offMax

/-- The inode of an open file, by its number in the image. -/
abbrev TebakoFd.inodeIn (fd : TebakoFd) (memfs : Memfs) : UInt32 :=
  fd.st.ino.toUInt32 - memfs.dwarfsRootInode

/-- The read fails, or finds fewer bytes than an `int` can count. -/
def Memfs.FindsFew (memfs : Memfs) (contents : UInt32 → List UInt8) (fd : TebakoFd) (start nbyte : Nat) :
    Prop :=
  (∃ errno, memfs.fs.read (fd.inodeIn memfs) nbyte start = .error errno) ∨
    min nbyte ((contents (fd.inodeIn memfs)).length - start) < 2 ^ 31

/-- All bytes that have been stored are counted, and no others. -/
def CallResult.counting (got : List UInt8) : CallResult where
  ret := got.length
  stored := got

section One

variable {memfsTable : MemfsTable} {memfs : Memfs} {ino : UInt32} {size : Nat} {offset : Int}
variable {got : List UInt8} {errno : Errno} {contents : UInt32 → List UInt8}

theorem Dwarfs.ReadsFrom.length {fs : Dwarfs} {inode : UInt32} {start : Nat}
    (reads : fs.ReadsFrom contents) (ran : fs.read inode size start = .ok got) :
    got.length = min size ((contents inode).length - start) := by
  rw [reads.read ran, List.length_take, List.length_drop]

theorem inodeRead_error (mounted : memfsTable[getFsIndex ino.toUInt64]? = some memfs)
    (failed : memfs.fs.read (ino - memfs.dwarfsRootInode) size (sizeT offset) = .error errno) :
    dwarfsInodeRead memfsTable ino size offset = .error errno := by
  simp only [dwarfsInodeRead, mounted, Memfs.inodeRead, failed]

/-- An `int` holds the count exactly when it is below `2 ^ 31`. -/
theorem inodeRead_counting_iff (mounted : memfsTable[getFsIndex ino.toUInt64]? = some memfs)
    (ran : memfs.fs.read (ino - memfs.dwarfsRootInode) size (sizeT offset) = .ok got) :
    dwarfsInodeRead memfsTable ino size offset = .counting got ↔ got.length < 2 ^ 31 := by
  simp only [dwarfsInodeRead, mounted, Memfs.inodeRead, ran, CallResult.counting]
  constructor
  · intro same
    by_contra large
    have range : narrowInt got.length < 2 ^ 31 := by
      rw [narrowInt, Int.bmod_def]
      omega
    split at same
    · have counted := congrArg CallResult.ret same
      simp only [dwarfsIoError] at counted
      omega
    · have counted := congrArg CallResult.ret same
      simp only at counted
      omega
  · intro small
    have narrow := narrowInt_of_lt (Int.natCast_nonneg got.length) (by omega)
    simp only [narrow]
    exact if_neg (by omega)

end One

/-! ## One call -/

namespace Process

variable (p : Process) (memfsTable : MemfsTable) (vfd : Int) (nbyte : Nat)

/-- `tebako_read` on the descriptor reports what the read of the image comes to,
and moves by the bytes that it has stored. -/
def ReadsExactly (fd : TebakoFd) : Except Errno (List UInt8) → Prop
  | .error errno => p.tebakoRead memfsTable vfd nbyte = (.returned (.error errno), p)
  | .ok got => p.tebakoRead memfsTable vfd nbyte = (.returned (.counting got), { p with
      fdTable := Std.ExtTreeMap.insert p.fdTable vfd { fd with pos := fd.pos + got.length } })

/-- `tebako_pread` reports it too, and moves nothing. -/
def PreadsExactly (offset : Int) : Except Errno (List UInt8) → Prop
  | .error errno => p.tebakoPread memfsTable vfd nbyte offset = .returned (.error errno)
  | .ok got => p.tebakoPread memfsTable vfd nbyte offset = .returned (.counting got)

variable {p memfsTable vfd nbyte} {fd : TebakoFd} {memfs : Memfs} {contents : UInt32 → List UInt8}
variable {got : List UInt8}

theorem passOn_known {call : HostCall} {result : CallResult} (known : result.ret ≠ dwarfsInvalidFd) :
    p.passOn vfd call result = .returned result := by
  simp only [passOn, known, ↓reduceIte]

theorem tebakoRead_eq (held : p.fdTable[vfd]? = some fd) :
    p.tebakoRead memfsTable vfd nbyte =
      (.returned (p.fdTable.read memfsTable vfd nbyte).1,
        { p with fdTable := (p.fdTable.read memfsTable vfd nbyte).2 }) := by
  simp only [tebakoRead, passOn_known (FdTable.read_ret held)]

theorem tebakoPread_eq {offset : Int} (held : p.fdTable[vfd]? = some fd) :
    p.tebakoPread memfsTable vfd nbyte offset =
      .returned (dwarfsInodeRead memfsTable fd.st.ino.toUInt32 nbyte offset) := by
  rw [tebakoPread, passOn_known (FdTable.pread_ret held)]
  simp only [FdTable.pread, held]

theorem read_of_counting (held : p.fdTable[vfd]? = some fd) (position : fd.pos + got.length < 2 ^ 64)
    (counted : dwarfsInodeRead memfsTable fd.st.ino.toUInt32 nbyte (offT fd.pos) = .counting got) :
    p.fdTable.read memfsTable vfd nbyte = (.counting got,
      Std.ExtTreeMap.insert p.fdTable vfd { fd with pos := fd.pos + got.length }) := by
  have moved : sizeT (fd.pos + got.length) = fd.pos + got.length := by
    have cast := @sizeT_cast (fd.pos + got.length) (by omega) (by omega)
    omega
  simp only [FdTable.read, held, counted]
  split
  · simp only [CallResult.counting, moved]
  · rename_i none
    have empty : got.length = 0 := by
      simp only [CallResult.counting] at none
      omega
    rw [empty, Nat.add_zero, insert_eq_self_iff.mpr held]

theorem readsExactly_iff (held : p.fdTable[vfd]? = some fd)
    (mounted : memfsTable[getFsIndex fd.st.ino.toUInt32.toUInt64]? = some memfs)
    (reads : memfs.fs.ReadsFrom contents) (position : fd.pos < 2 ^ 64) :
    p.ReadsExactly memfsTable vfd nbyte fd
        (memfs.fs.read (fd.inodeIn memfs) nbyte fd.pos) ↔
      memfs.FindsFew contents fd fd.pos nbyte := by
  have there := sizeT_offT position
  cases ran : memfs.fs.read (fd.inodeIn memfs) nbyte fd.pos with
  | error errno =>
      have failed := @inodeRead_error memfsTable memfs _ nbyte (offT fd.pos) errno mounted (by rwa [there])
      simp only [ReadsExactly, tebakoRead_eq held, Memfs.FindsFew, ran, Except.error.injEq, exists_eq',
        true_or, iff_true]
      simp only [FdTable.read, held, failed]
      rfl
  | ok got =>
      have length := reads.length ran
      have small := reads.size (fd.inodeIn memfs)
      have counting := @inodeRead_counting_iff memfsTable memfs _ nbyte (offT fd.pos) got mounted
        (by rwa [there])
      simp only [ReadsExactly, tebakoRead_eq held, Memfs.FindsFew, ran, reduceCtorEq, exists_false,
        false_or, ← length, ← counting]
      constructor
      · intro exact
        have result := congrArg Prod.fst exact
        simp only [FdOutcome.returned.injEq] at result
        simp only [FdTable.read, held] at result
        split at result <;> exact result
      · intro counted
        unfold offMax at small
        rw [read_of_counting held (by omega) counted]

theorem preadsExactly_iff {offset : Int} (held : p.fdTable[vfd]? = some fd)
    (mounted : memfsTable[getFsIndex fd.st.ino.toUInt32.toUInt64]? = some memfs)
    (reads : memfs.fs.ReadsFrom contents) :
    p.PreadsExactly memfsTable vfd nbyte offset
        (memfs.fs.read (fd.inodeIn memfs) nbyte (sizeT offset)) ↔
      memfs.FindsFew contents fd (sizeT offset) nbyte := by
  cases ran : memfs.fs.read (fd.inodeIn memfs) nbyte (sizeT offset) with
  | error errno =>
      simp only [PreadsExactly, tebakoPread_eq held, inodeRead_error mounted ran, Memfs.FindsFew, ran,
        Except.error.injEq, exists_eq', true_or]
  | ok got =>
      have length := reads.length ran
      simp only [PreadsExactly, tebakoPread_eq held, FdOutcome.returned.injEq,
        inodeRead_counting_iff mounted ran, length, Memfs.FindsFew, ran, reduceCtorEq, exists_false, false_or]

/-! ## Reads one after another -/

/-- The bytes that a caller finds in its buffer, by the count that it is given. -/
def delivered : FdOutcome → List UInt8
  | .returned result => result.stored.take result.ret.toNat
  | .host _ => []

def readStep (memfsTable : MemfsTable) (vfd : Int) : Machine Process Nat FdOutcome :=
  fun nbyte p => p.tebakoRead memfsTable vfd nbyte

/-- The reads deliver the bytes from the position on, and all of them once one
that asks for more is told that there are none. -/
def ReadsThrough (p : Process) (memfsTable : MemfsTable) (vfd : Int) (content : List UInt8)
    (sizes : List Nat) (nbyte : Nat) : Prop :=
  let got := (Machine.answers (readStep memfsTable vfd) sizes p).flatMap delivered
  got <+: content ∧
    ∀ result, ((Machine.after (readStep memfsTable vfd) sizes p).tebakoRead memfsTable vfd nbyte).1 =
      .returned result → result.ret = 0 → 0 < nbyte → got = content

/-- Each read of the file behind the number finds few enough bytes. -/
def FindsFewAt (memfs : Memfs) (contents : UInt32 → List UInt8) (vfd : Int) (p : Process) (nbyte : Nat) :
    Prop :=
  ∀ fd, p.fdTable[vfd]? = some fd → memfs.FindsFew contents fd fd.pos nbyte

theorem read_cases (held : p.fdTable[vfd]? = some fd)
    (mounted : memfsTable[getFsIndex fd.st.ino.toUInt32.toUInt64]? = some memfs)
    (reads : memfs.fs.ReadsFrom contents) (position : fd.pos < 2 ^ 64)
    (few : FindsFewAt memfs contents vfd p nbyte) :
    (∃ errno, p.tebakoRead memfsTable vfd nbyte = (.returned (.error errno), p)) ∨
      ∃ got, got = ((contents (fd.inodeIn memfs)).drop fd.pos).take nbyte ∧
        p.tebakoRead memfsTable vfd nbyte = (.returned (.counting got), { p with
          fdTable := Std.ExtTreeMap.insert p.fdTable vfd { fd with pos := fd.pos + got.length } }) := by
  have exactly := (readsExactly_iff held mounted reads position).mpr (few fd held)
  cases ran : memfs.fs.read (fd.inodeIn memfs) nbyte fd.pos with
  | error errno =>
      rw [ran] at exactly
      exact .inl ⟨errno, exactly⟩
  | ok got =>
      rw [ran] at exactly
      exact .inr ⟨got, reads.read ran, exactly⟩

theorem delivered_counting : delivered (.returned (.counting got)) = got := by
  simp only [delivered, CallResult.counting, Int.toNat_natCast, List.take_length]

theorem delivered_error {errno : Errno} : delivered (.returned (.error errno)) = [] := rfl

/-- The last read finds nothing, so that there is nothing left. -/
theorem readsThrough_nil (held : p.fdTable[vfd]? = some fd)
    (mounted : memfsTable[getFsIndex fd.st.ino.toUInt32.toUInt64]? = some memfs)
    (reads : memfs.fs.ReadsFrom contents) (position : fd.pos < 2 ^ 64)
    (few : FindsFewAt memfs contents vfd p nbyte) :
    p.ReadsThrough memfsTable vfd ((contents (fd.inodeIn memfs)).drop fd.pos) [] nbyte := by
  refine ⟨List.nil_prefix, fun result answered none positive => ?_⟩
  rcases read_cases held mounted reads position few with ⟨errno, ran⟩ | ⟨got, found, ran⟩
  · rw [Machine.after, ran] at answered
    cases answered
    cases none
  · rw [Machine.after, ran] at answered
    cases answered
    have empty : got = [] := by
      simp only [CallResult.counting] at none
      exact List.length_eq_zero_iff.mp (by omega)
    rw [empty, eq_comm, List.take_eq_nil_iff] at found
    simp only [Machine.answers, List.flatMap_nil]
    rcases found with zero | nothing
    · omega
    · exact nothing.symm

theorem readsThrough (sizes : List Nat) (held : p.fdTable[vfd]? = some fd)
    (mounted : memfsTable[getFsIndex fd.st.ino.toUInt32.toUInt64]? = some memfs)
    (reads : memfs.fs.ReadsFrom contents) (position : fd.pos < 2 ^ 64)
    (few : Machine.Allows (readStep memfsTable vfd) (FindsFewAt memfs contents vfd)
      (sizes ++ [nbyte]) p) :
    p.ReadsThrough memfsTable vfd ((contents (fd.inodeIn memfs)).drop fd.pos) sizes nbyte := by
  induction sizes generalizing p fd with
  | nil => exact readsThrough_nil held mounted reads position few.1
  | cons size rest ih =>
      obtain ⟨here, later⟩ := few
      simp only [readStep] at later
      rcases read_cases held mounted reads position here with ⟨errno, ran⟩ | ⟨got, found, ran⟩
      · rw [ran] at later
        have further := ih held mounted position later
        simpa only [ReadsThrough, Machine.answers, Machine.after, readStep, ran, List.flatMap_cons,
          delivered_error, List.nil_append] using further
      · rw [ran] at later
        have small := reads.size (fd.inodeIn memfs)
        have length : got.length = min size ((contents (fd.inodeIn memfs)).length - fd.pos) := by
          rw [found, List.length_take, List.length_drop]
        have there : (Std.ExtTreeMap.insert p.fdTable vfd { fd with pos := fd.pos + got.length })[vfd]? =
            some { fd with pos := fd.pos + got.length } := Std.ExtTreeMap.getElem?_insert_self
        have short : fd.pos + got.length < 2 ^ 64 := by
          unfold offMax at small
          omega
        have further := @ih _ { fd with pos := fd.pos + got.length } there mounted short later
        have whole : (contents (fd.inodeIn memfs)).drop fd.pos =
            got ++ (contents (fd.inodeIn memfs)).drop (fd.pos + got.length) := by
          have start : got <+: (contents (fd.inodeIn memfs)).drop fd.pos := found ▸ List.take_prefix _ _
          rw [← List.drop_drop]
          exact (List.prefix_iff_eq_append.mp start).symm
        simp only [ReadsThrough, Machine.answers, Machine.after, readStep, ran, List.flatMap_cons,
          delivered_counting] at further ⊢
        rw [whole]
        refine ⟨(List.prefix_append_right_inj got).mpr further.1, fun result answered none positive => ?_⟩
        rw [further.2 result answered none positive]

end Process

/-- A count is exact if and only if the read fails or finds fewer than `2 ^ 31`
bytes; and reads that all do deliver the file from the position on. -/
theorem counts_exact_iff (p : Process) (memfsTable : MemfsTable) (vfd : Int) (fd : TebakoFd)
    (memfs : Memfs) (contents : UInt32 → List UInt8) (held : p.fdTable[vfd]? = some fd)
    (mounted : memfsTable[getFsIndex fd.st.ino.toUInt32.toUInt64]? = some memfs)
    (reads : memfs.fs.ReadsFrom contents) (position : fd.pos < 2 ^ 64) :
    (∀ nbyte, p.ReadsExactly memfsTable vfd nbyte fd (memfs.fs.read (fd.inodeIn memfs) nbyte fd.pos) ↔
      memfs.FindsFew contents fd fd.pos nbyte) ∧
    (∀ nbyte offset, p.PreadsExactly memfsTable vfd nbyte offset
        (memfs.fs.read (fd.inodeIn memfs) nbyte (sizeT offset)) ↔
      memfs.FindsFew contents fd (sizeT offset) nbyte) ∧
    ∀ sizes nbyte, Machine.Allows (Process.readStep memfsTable vfd)
        (Process.FindsFewAt memfs contents vfd) (sizes ++ [nbyte]) p →
      p.ReadsThrough memfsTable vfd ((contents (fd.inodeIn memfs)).drop fd.pos) sizes nbyte :=
  ⟨fun _ => Process.readsExactly_iff held mounted reads position,
    fun _ _ => Process.preadsExactly_iff held mounted reads,
    fun sizes _ few => Process.readsThrough sizes held mounted reads position few⟩

/-- An image with one file, inode 1. -/
def filledImage (bytes : List UInt8) : Dwarfs :=
  { Dwarfs.unloaded with
    read := fun inode size offset =>
      if inode = 1 then .ok ((bytes.drop offset).take size) else .error .EINVAL }

def filledMemfs (bytes : List UInt8) : Memfs := { makeMemfs {} bytes 0 with fs := filledImage bytes }

def filledTable (bytes : List UInt8) : MemfsTable := Std.ExtTreeMap.insert ∅ 0 (filledMemfs bytes)

def filledContents (bytes : List UInt8) (inode : UInt32) : List UInt8 := if inode = 1 then bytes else []

def filledFd (bytes : List UInt8) : TebakoFd := ⟨⟨1, 0o100644, bytes.length⟩, 0, 0, 1⟩

/-- The file is open under the number 1. -/
def filledProcess (bytes : List UInt8) : Process :=
  { freshProcess with fdTable := (∅ : FdTable).insert 1 (filledFd bytes) }

section Filled

variable {bytes : List UInt8}

theorem filled_held : (filledProcess bytes).fdTable[(1 : Int)]? = some (filledFd bytes) :=
  Std.ExtTreeMap.getElem?_insert_self

theorem filled_mounted :
    (filledTable bytes)[getFsIndex (filledFd bytes).st.ino.toUInt32.toUInt64]? = some (filledMemfs bytes) := by
  have root : getFsIndex (filledFd bytes).st.ino.toUInt32.toUInt64 = 0 :=
    show getFsIndex (1 : UInt64).toUInt32.toUInt64 = 0 by decide
  rw [root]
  exact Std.ExtTreeMap.getElem?_insert_self

theorem filled_inode : (filledFd bytes).inodeIn (filledMemfs bytes) = 1 :=
  show (1 : UInt64).toUInt32 - 0 = 1 by decide

theorem filled_reads (short : (bytes.length : Int) ≤ offMax) :
    (filledMemfs bytes).fs.ReadsFrom (filledContents bytes) where
  read ran := by
    simp only [filledMemfs, filledImage] at ran
    split at ran
    · rename_i file
      cases ran
      rw [filledContents, if_pos file]
    · cases ran
  size inode := by
    unfold filledContents
    split
    · exact short
    · decide

end Filled

/-- Two reads of a file of three bytes deliver it, and a third one finds nothing. -/
theorem three_bytes_delivered :
    (filledProcess [7, 8, 9]).ReadsThrough (filledTable [7, 8, 9]) 1 [7, 8, 9] [2, 2] 2 := by
  obtain ⟨_, _, runs⟩ := counts_exact_iff (filledProcess [7, 8, 9]) (filledTable [7, 8, 9]) 1
    (filledFd [7, 8, 9]) (filledMemfs [7, 8, 9]) (filledContents [7, 8, 9]) filled_held filled_mounted
    (filled_reads (by decide)) (by decide)
  rw [filled_inode] at runs
  refine runs [2, 2] 2 ?_
  have few : ∀ p, Process.FindsFewAt (filledMemfs [7, 8, 9]) (filledContents [7, 8, 9]) 1 p 2 := by
    intro p fd _
    refine .inr ?_
    omega
  exact ⟨few _, few _, few _, trivial⟩

/-- A read that finds `2 ^ 31` bytes stores them, and is an error. -/
theorem large_read_not_counted : ¬ ∀ (p : Process) (memfsTable : MemfsTable) (vfd : Int) (nbyte : Nat)
    (fd : TebakoFd) (memfs : Memfs) (contents : UInt32 → List UInt8), p.fdTable[vfd]? = some fd →
      memfsTable[getFsIndex fd.st.ino.toUInt32.toUInt64]? = some memfs →
      memfs.fs.ReadsFrom contents → fd.pos < 2 ^ 64 → (nbyte : Int) ≤ offMax →
      p.ReadsExactly memfsTable vfd nbyte fd (memfs.fs.read (fd.inodeIn memfs) nbyte fd.pos) := by
  intro always
  let bytes : List UInt8 := List.replicate (2 ^ 31) 0
  have length : bytes.length = 2 ^ 31 := List.length_replicate
  have reads : (filledMemfs bytes).fs.ReadsFrom (filledContents bytes) :=
    filled_reads (by rw [length]; decide)
  have exactly := always (filledProcess bytes) (filledTable bytes) 1 (2 ^ 31) (filledFd bytes)
    (filledMemfs bytes) (filledContents bytes) filled_held filled_mounted reads (by decide) (by decide)
  rcases (Process.readsExactly_iff filled_held filled_mounted reads (by decide)).mp exactly with
    ⟨errno, failed⟩ | few
  · rw [filled_inode] at failed
    cases failed
  · rw [filled_inode] at few
    simp only [filledContents, ↓reduceIte, length, filledFd] at few
    omega

end Tebako
