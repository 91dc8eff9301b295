import Tebako.Data.Segments
import Tebako.FileReads

namespace Tebako

open Data Data.OrderedMap Data.Segments

/-! `readv` against one `read` for the lengths of all buffers together. -/

/-- The bytes that the loop of `readv` stores in each of the buffers. -/
def FdTable.scatterInto (memfsTable : MemfsTable) (inode : UInt32) : List Nat → Nat → Int → List (List UInt8)
  | [], _, _ => []
  | len :: rest, pos, ret =>
      let next := dwarfsInodeRead memfsTable inode len (offT pos)
      next.stored ::
        if 0 < next.ret ∧ ¬ sizeT (offMax - next.ret) < pos ∧ ¬ offMax - next.ret < ret then
          scatterInto memfsTable inode rest (sizeT (pos + next.ret)) (ret + next.ret)
        else rest.map fun _ => []

namespace Memfs

variable (memfs : Memfs) (inode : UInt32)

def ReadsAll (asked : List (Nat × Nat)) : Prop :=
  ∀ range ∈ asked, ∃ got, memfs.fs.read inode range.1 range.2 = .ok got

def FirstFails (asked : List (Nat × Nat)) : Prop :=
  ∃ range errno, asked.head? = some range ∧ memfs.fs.read inode range.1 range.2 = .error errno

/-- The first read fails, or none of them; and no empty buffer keeps the rest
from what one read would store in it. -/
def ScattersSoundly (limit : Nat) (lens : List Nat) (pos : Nat) : Prop :=
  memfs.FirstFails inode (ranges limit lens pos) ∨
    memfs.ReadsAll inode (ranges limit lens pos) ∧
      (memfs.ReadsAll inode [(lens.sum, pos)] → ¬ Gap limit lens pos)

end Memfs

/-- `readv` comes to what one `read` comes to, buffer by buffer, where no read of
the image fails; and it moves nothing where it fails. -/
structure Process.ReadvAsRead (p : Process) (memfsTable : MemfsTable) (vfd : Int) (lens : List Nat)
    (fd : TebakoFd) (memfs : Memfs) (limit : Nat) : Prop where
  same : memfs.ReadsAll (fd.inodeIn memfs) (ranges limit lens fd.pos) →
    memfs.ReadsAll (fd.inodeIn memfs) [(lens.sum, fd.pos)] →
      p.tebakoReadv memfsTable vfd (some lens) = p.tebakoRead memfsTable vfd lens.sum ∧
        FdTable.scatterInto memfsTable fd.st.ino.toUInt32 lens fd.pos 0 =
          lens.splitLengths (delivered (p.tebakoRead memfsTable vfd lens.sum).1)
  kept : ∀ result, (p.tebakoReadv memfsTable vfd (some lens)).1 = .returned result →
    result.ret = dwarfsIoError → (p.tebakoReadv memfsTable vfd (some lens)).2 = p

section Loop

variable {memfsTable : MemfsTable} {memfs : Memfs} {ino : UInt32} {contents : UInt32 → List UInt8}
variable {len pos : Nat} {lens rest : List Nat} {result : CallResult} {got : List UInt8} {errno : Errno}

/-- The buffers hold what is stored, one after another. -/
theorem scatter_stored : (FdTable.scatter memfsTable ino lens pos result).2.stored =
    result.stored ++ (FdTable.scatterInto memfsTable ino lens pos result.ret).flatten := by
  induction lens generalizing pos result with
  | nil => simp [FdTable.scatter, FdTable.scatterInto]
  | cons len rest ih =>
      have empty : (rest.map fun _ => ([] : List UInt8)).flatten = [] := by simp
      simp only [FdTable.scatter, FdTable.scatterInto, List.flatten_cons]
      split
      · rename_i counted
        split
        · rename_i past
          simp only [past, not_true_eq_false, false_and, and_false, ↓reduceIte, empty, List.append_nil]
        · rename_i before
          split
          · rename_i large
            simp only [large, not_true_eq_false, and_false, ↓reduceIte, empty, List.append_nil]
          · rename_i fits
            simp only [counted, before, fits, not_false_eq_true, and_self, ↓reduceIte, ih,
              List.append_assoc]
      · rename_i none
        have stops : ∀ other, ¬ (0 < (dwarfsInodeRead memfsTable ino len (offT pos)).ret ∧ other) :=
          fun _ both => none both.1
        rw [if_neg (stops _), empty, List.append_nil]
        split <;> rfl

theorem readsAll_cons {range : Nat × Nat} {asked : List (Nat × Nat)} {inode : UInt32} :
    memfs.ReadsAll inode (range :: asked) ↔
      (∃ got, memfs.fs.read inode range.1 range.2 = .ok got) ∧ memfs.ReadsAll inode asked :=
  List.forall_mem_cons

variable {content : List UInt8}

theorem length_segment :
    ((content.drop pos).take (min len (content.length - pos))).length = min len (content.length - pos) := by
  rw [List.length_take, List.length_drop]
  omega

/-- A read of the image is passed on whole. -/
theorem inodeRead_segment (mounted : memfsTable[getFsIndex ino.toUInt64]? = some memfs)
    (reads : memfs.fs.ReadsFrom contents) (whole : contents (ino - memfs.dwarfsRootInode) = content)
    (position : pos < 2 ^ 64) (few : len < 2 ^ 31)
    (ran : memfs.fs.read (ino - memfs.dwarfsRootInode) len pos = .ok got) :
    dwarfsInodeRead memfsTable ino len (offT pos) =
      .counting ((content.drop pos).take (min len (content.length - pos))) := by
  have length := reads.length ran
  have segment : got = (content.drop pos).take (min len (content.length - pos)) := by
    rw [reads.read ran, whole, List.take_eq_take_min, List.length_drop]
  subst segment
  refine (inodeRead_counting_iff mounted (by rwa [sizeT_offT position])).mpr ?_
  omega

theorem guards_pass {ret count : Int} (positive : 0 < count) (inside : pos + count ≤ offMax)
    (counted : ret + count ≤ offMax) :
    0 < count ∧ ¬ sizeT (offMax - count) < pos ∧ ¬ offMax - count < ret := by
  have room : (sizeT (offMax - count) : Int) = offMax - count := by
    apply sizeT_cast
    · omega
    · unfold offMax
      omega
  refine ⟨positive, ?_, ?_⟩
  · omega
  · omega

theorem position_moved {count : Nat} (inside : (pos : Int) + count ≤ offMax) :
    sizeT (pos + (count : Int)) = pos + count := by
  unfold offMax at inside
  have cast := @sizeT_cast ((pos : Int) + count) (by omega) (by omega)
  omega

/-- A round of the loop that finds something. -/
theorem scatter_some (read : dwarfsInodeRead memfsTable ino len (offT pos) = .counting got)
    (some : 0 < got.length) (inside : (pos : Int) + got.length ≤ offMax)
    (counted : result.ret + got.length ≤ offMax) :
    FdTable.scatter memfsTable ino (len :: rest) pos result =
      FdTable.scatter memfsTable ino rest (pos + got.length)
        { result with ret := result.ret + got.length, stored := result.stored ++ got } := by
  obtain ⟨positive, before, fits⟩ := guards_pass (Int.natCast_pos.mpr some) inside counted
  simp only [FdTable.scatter, read, CallResult.counting, positive, before, fits, ↓reduceIte,
    position_moved inside]

theorem scatterInto_some {ret : Int} (read : dwarfsInodeRead memfsTable ino len (offT pos) = .counting got)
    (some : 0 < got.length) (inside : (pos : Int) + got.length ≤ offMax)
    (counted : ret + got.length ≤ offMax) :
    FdTable.scatterInto memfsTable ino (len :: rest) pos ret =
      got :: FdTable.scatterInto memfsTable ino rest (pos + got.length) (ret + got.length) := by
  have pass := guards_pass (Int.natCast_pos.mpr some) inside counted
  simp only [FdTable.scatterInto, read, CallResult.counting, if_pos pass, position_moved inside]

theorem scatter_none (read : dwarfsInodeRead memfsTable ino len (offT pos) = .counting []) :
    FdTable.scatter memfsTable ino (len :: rest) pos result = (pos, result) := by
  simp only [FdTable.scatter, read, CallResult.counting, List.length_nil, Int.natCast_zero,
    Int.lt_irrefl, ↓reduceIte, List.append_nil]

theorem scatterInto_none {ret : Int}
    (read : dwarfsInodeRead memfsTable ino len (offT pos) = .counting []) :
    FdTable.scatterInto memfsTable ino (len :: rest) pos ret = [] :: rest.map fun _ => [] := by
  simp only [FdTable.scatterInto, read, CallResult.counting, List.length_nil, Int.natCast_zero,
    Int.lt_irrefl, false_and, ↓reduceIte]

theorem scatter_error (read : dwarfsInodeRead memfsTable ino len (offT pos) = .error errno) :
    FdTable.scatter memfsTable ino (len :: rest) pos result =
      (pos, { CallResult.error errno with stored := result.stored }) := by
  have negative : ¬ 0 < dwarfsIoError := by decide
  have error : dwarfsIoError < 0 := by decide
  simp only [FdTable.scatter, read, CallResult.error, negative, error, ↓reduceIte, List.append_nil]

/-- Where no read fails, the loop stores what the segments come to. -/
theorem scatter_of_readsAll (mounted : memfsTable[getFsIndex ino.toUInt64]? = some memfs)
    (reads : memfs.fs.ReadsFrom contents) (whole : contents (ino - memfs.dwarfsRootInode) = content)
    (position : pos < 2 ^ 64) (nonneg : 0 ≤ result.ret) (few : result.ret + lens.sum < 2 ^ 31)
    (all : memfs.ReadsAll (ino - memfs.dwarfsRootInode) (ranges content.length lens pos)) :
    FdTable.scatter memfsTable ino lens pos result =
      (pos + taken content.length lens pos,
        { result with
          ret := result.ret + taken content.length lens pos
          stored := result.stored ++ (content.drop pos).take (taken content.length lens pos) }) := by
  induction lens generalizing pos result with
  | nil => simp [FdTable.scatter, taken]
  | cons len rest ih =>
      obtain ⟨⟨got, ran⟩, later⟩ := readsAll_cons.mp all
      simp only at ran
      rw [List.sum_cons] at few
      have size := reads.size (ino - memfs.dwarfsRootInode)
      rw [whole] at size
      have read := inodeRead_segment mounted reads whole position (by omega) ran
      have length := @length_segment len pos content
      rw [taken]
      by_cases none : min len (content.length - pos) = 0
      · rw [none, List.take_zero] at read
        rw [scatter_none read, if_pos none, List.take_zero, List.append_nil, Nat.add_zero,
          Int.natCast_zero, Int.add_zero]
      · rw [if_neg none] at later ⊢
        have there : (pos : Int) + min len (content.length - pos) ≤ offMax := by omega
        rw [scatter_some read (by omega) (by omega) (by unfold offMax; omega), length]
        have further := @ih (pos + min len (content.length - pos))
          { result with
            ret := result.ret + min len (content.length - pos)
            stored := result.stored ++ (content.drop pos).take (min len (content.length - pos)) }
          (by unfold offMax at there; omega) (by simp only; omega) (by simp only; omega) later
        rw [further, List.take_add, List.drop_drop, List.append_assoc, Nat.add_assoc, Int.add_assoc,
          Int.natCast_add]

theorem scatterInto_of_readsAll {ret : Int} (mounted : memfsTable[getFsIndex ino.toUInt64]? = some memfs)
    (reads : memfs.fs.ReadsFrom contents) (whole : contents (ino - memfs.dwarfsRootInode) = content)
    (position : pos < 2 ^ 64) (nonneg : 0 ≤ ret) (few : ret + lens.sum < 2 ^ 31)
    (all : memfs.ReadsAll (ino - memfs.dwarfsRootInode) (ranges content.length lens pos))
    (closed : ¬ Gap content.length lens pos) :
    FdTable.scatterInto memfsTable ino lens pos ret = lens.splitLengths (content.drop pos) := by
  induction lens generalizing pos ret with
  | nil => rfl
  | cons len rest ih =>
      obtain ⟨⟨got, ran⟩, later⟩ := readsAll_cons.mp all
      simp only at ran
      rw [List.sum_cons] at few
      rw [gap_cons, not_or] at closed
      obtain ⟨here, closed⟩ := closed
      have size := reads.size (ino - memfs.dwarfsRootInode)
      rw [whole] at size
      have read := inodeRead_segment mounted reads whole position (by omega) ran
      have length := @length_segment len pos content
      rw [List.splitLengths_cons]
      by_cases none : min len (content.length - pos) = 0
      · rw [none, List.take_zero] at read
        rw [scatterInto_none read]
        by_cases ended : content.length ≤ pos
        · rw [List.drop_eq_nil_iff.mpr ended, List.take_nil, List.drop_nil, splitLengths_empty]
        · have zero : len = 0 := by omega
          have rest : rest.sum = 0 := by
            by_contra more
            exact here ⟨zero, by omega, by omega⟩
          rw [zero, List.take_zero, List.drop_zero, splitLengths_of_sum_zero rest]
      · rw [if_neg none] at later
        have there : (pos : Int) + min len (content.length - pos) ≤ offMax := by omega
        rw [scatterInto_some read (by omega) (by omega) (by unfold offMax; omega), length]
        have open' : ¬ Gap content.length rest (pos + min len (content.length - pos)) := by
          by_cases inside : len ≤ content.length - pos
          · rwa [Nat.min_eq_left inside]
          · exact not_gap_of_ended (by omega)
        rw [ih (by unfold offMax at there; omega) (by omega) (by omega) later open']
        have segment : (content.drop pos).take len =
            (content.drop pos).take (min len (content.length - pos)) := by
          rw [List.take_eq_take_min, List.length_drop]
        rw [segment, List.drop_drop]
        by_cases inside : len ≤ content.length - pos
        · rw [Nat.min_eq_left inside]
        · rw [List.drop_eq_nil_iff.mpr (show content.length ≤ pos + len by omega),
            List.drop_eq_nil_iff.mpr (show content.length ≤ pos + min len (content.length - pos) by omega)]

/-- A read that fails is the end of the loop, and what has been read before it
has moved the position. -/
theorem scatter_of_failed (mounted : memfsTable[getFsIndex ino.toUInt64]? = some memfs)
    (reads : memfs.fs.ReadsFrom contents) (whole : contents (ino - memfs.dwarfsRootInode) = content)
    (position : pos < 2 ^ 64) (nonneg : 0 ≤ result.ret) (few : result.ret + lens.sum < 2 ^ 31)
    (failed : ¬ memfs.ReadsAll (ino - memfs.dwarfsRootInode) (ranges content.length lens pos)) :
    (FdTable.scatter memfsTable ino lens pos result).2.ret = dwarfsIoError ∧
      pos ≤ (FdTable.scatter memfsTable ino lens pos result).1 ∧
      ((FdTable.scatter memfsTable ino lens pos result).1 = pos ↔
        memfs.FirstFails (ino - memfs.dwarfsRootInode) (ranges content.length lens pos)) := by
  induction lens generalizing pos result with
  | nil => exact absurd (List.forall_mem_nil _) failed
  | cons len rest ih =>
      rw [List.sum_cons] at few
      have size := reads.size (ino - memfs.dwarfsRootInode)
      rw [whole] at size
      cases ran : memfs.fs.read (ino - memfs.dwarfsRootInode) len pos with
      | error errno =>
          have there := sizeT_offT position
          have read := @inodeRead_error memfsTable memfs ino len (offT pos) errno mounted (by rw [there]; exact ran)
          rw [scatter_error read]
          exact ⟨rfl, Nat.le_refl _, fun _ => ⟨(len, pos), errno, rfl, ran⟩, fun _ => rfl⟩
      | ok got =>
          have first : ¬ memfs.FirstFails (ino - memfs.dwarfsRootInode)
              (ranges content.length (len :: rest) pos) := by
            intro fails
            obtain ⟨range, errno, same, failed⟩ := fails
            cases same
            rw [ran] at failed
            cases failed
          have read := inodeRead_segment mounted reads whole position (by omega) ran
          have length := @length_segment len pos content
          have further : ¬ memfs.ReadsAll (ino - memfs.dwarfsRootInode)
              (if min len (content.length - pos) = 0 then []
                else ranges content.length rest (pos + min len (content.length - pos))) :=
            fun all => failed (readsAll_cons.mpr ⟨⟨got, ran⟩, all⟩)
          by_cases none : min len (content.length - pos) = 0
          · rw [if_pos none] at further
            exact absurd (List.forall_mem_nil _) further
          · rw [if_neg none] at further
            have there : (pos : Int) + min len (content.length - pos) ≤ offMax := by omega
            rw [scatter_some read (by omega) (by omega) (by unfold offMax; omega), length]
            obtain ⟨error, above, _⟩ := @ih (pos + min len (content.length - pos))
              { result with
                ret := result.ret + min len (content.length - pos)
                stored := result.stored ++ (content.drop pos).take (min len (content.length - pos)) }
              (by unfold offMax at there; omega) (by simp only; omega) (by simp only; omega) further
            refine ⟨error, by omega, fun same => ?_, fun fails => absurd fails first⟩
            omega

end Loop

namespace Process

variable {p : Process} {memfsTable : MemfsTable} {memfs : Memfs} {contents : UInt32 → List UInt8}
variable {content : List UInt8} {vfd : Int} {fd : TebakoFd} {lens : List Nat}

theorem tebakoReadv_eq (held : p.fdTable[vfd]? = some fd) :
    p.tebakoReadv memfsTable vfd (some lens) =
      (.returned (FdTable.scatter memfsTable fd.st.ino.toUInt32 lens fd.pos { ret := 0 }).2, { p with
        fdTable := Std.ExtTreeMap.insert p.fdTable vfd { fd with
          pos := (FdTable.scatter memfsTable fd.st.ino.toUInt32 lens fd.pos { ret := 0 }).1 } }) := by
  have known := @FdTable.readv_ret memfsTable p.fdTable vfd fd (some lens) held
  simp only [tebakoReadv, passOn_known known]
  simp only [FdTable.readv, held]

/-- The position is back where it was if and only if the process is. -/
theorem moved_eq_iff {pos : Nat} (held : p.fdTable[vfd]? = some fd) :
    { p with fdTable := Std.ExtTreeMap.insert p.fdTable vfd { fd with pos := pos } } = p ↔ pos = fd.pos := by
  constructor
  · intro same
    have table := congrArg Process.fdTable same
    rw [insert_eq_self_iff, held] at table
    exact congrArg TebakoFd.pos (Option.some.inj table).symm
  · intro same
    subst same
    rw [insert_eq_self_iff.mpr held]

theorem tebakoRead_sum {got : List UInt8} (held : p.fdTable[vfd]? = some fd)
    (mounted : memfsTable[getFsIndex fd.st.ino.toUInt32.toUInt64]? = some memfs)
    (reads : memfs.fs.ReadsFrom contents) (whole : contents (fd.inodeIn memfs) = content)
    (position : fd.pos < 2 ^ 64) (few : lens.sum < 2 ^ 31)
    (ran : memfs.fs.read (fd.inodeIn memfs) lens.sum fd.pos = .ok got) :
    p.tebakoRead memfsTable vfd lens.sum =
      (.returned (.counting ((content.drop fd.pos).take (min lens.sum (content.length - fd.pos)))),
        { p with fdTable := Std.ExtTreeMap.insert p.fdTable vfd { fd with
          pos := fd.pos + min lens.sum (content.length - fd.pos) } }) := by
  have small : memfs.FindsFew contents fd fd.pos lens.sum := .inr (by omega)
  have exactly := (readsExactly_iff held mounted reads position).mpr small
  have length := reads.length ran
  have segment : got = (content.drop fd.pos).take (min lens.sum (content.length - fd.pos)) := by
    rw [reads.read ran, whole, List.take_eq_take_min, List.length_drop]
  rw [ran, ReadsExactly, length, segment, whole] at exactly
  exact exactly

theorem readvAsRead_of_readsAll (held : p.fdTable[vfd]? = some fd)
    (mounted : memfsTable[getFsIndex fd.st.ino.toUInt32.toUInt64]? = some memfs)
    (reads : memfs.fs.ReadsFrom contents) (whole : contents (fd.inodeIn memfs) = content)
    (position : fd.pos < 2 ^ 64) (few : lens.sum < 2 ^ 31)
    (all : memfs.ReadsAll (fd.inodeIn memfs) (ranges content.length lens fd.pos)) :
    p.ReadvAsRead memfsTable vfd lens fd memfs content.length ↔
      (memfs.ReadsAll (fd.inodeIn memfs) [(lens.sum, fd.pos)] → ¬ Gap content.length lens fd.pos) := by
  have loop := @scatter_of_readsAll memfsTable memfs fd.st.ino.toUInt32 contents fd.pos lens { ret := 0 }
    content mounted reads whole position (Int.le_refl 0) (by simp only; omega) all
  have ran : p.tebakoReadv memfsTable vfd (some lens) =
      (.returned (.counting ((content.drop fd.pos).take (taken content.length lens fd.pos))), { p with
        fdTable := Std.ExtTreeMap.insert p.fdTable vfd { fd with
          pos := fd.pos + taken content.length lens fd.pos } }) := by
    have short := @taken_le content.length fd.pos lens
    have length : ((content.drop fd.pos).take (taken content.length lens fd.pos)).length =
        taken content.length lens fd.pos := by
      rw [List.length_take, List.length_drop]
      omega
    rw [tebakoReadv_eq held, loop]
    simp only [CallResult.counting, length, Int.zero_add, List.nil_append]
  constructor
  · intro as single
    obtain ⟨same, _⟩ := as.same all single
    obtain ⟨got, read⟩ := single _ (List.mem_singleton.mpr rfl)
    rw [ran, tebakoRead_sum held mounted reads whole position few read] at same
    have counted := congrArg (fun outcome : FdOutcome × Process => (delivered outcome.1).length) same
    simp only [delivered_counting, List.length_take, List.length_drop] at counted
    refine taken_eq_iff.mp ?_
    have short := @taken_le content.length fd.pos lens
    omega
  · intro closed
    constructor
    · intro _ single
      obtain ⟨got, read⟩ := single _ (List.mem_singleton.mpr rfl)
      have gapless := closed single
      rw [ran, tebakoRead_sum held mounted reads whole position few read, taken_eq_iff.mpr gapless]
      refine ⟨rfl, ?_⟩
      rw [delivered_counting, scatterInto_of_readsAll mounted reads whole position (Int.le_refl 0)
        (by omega) all gapless, ← List.length_drop, ← List.take_eq_take_min, splitLengths_take_sum]
    · intro result returned error
      rw [ran] at returned
      cases returned
      simp only [CallResult.counting, dwarfsIoError] at error
      omega

theorem readvAsRead_iff (held : p.fdTable[vfd]? = some fd)
    (mounted : memfsTable[getFsIndex fd.st.ino.toUInt32.toUInt64]? = some memfs)
    (reads : memfs.fs.ReadsFrom contents) (whole : contents (fd.inodeIn memfs) = content)
    (position : fd.pos < 2 ^ 64) (few : lens.sum < 2 ^ 31) :
    p.ReadvAsRead memfsTable vfd lens fd memfs content.length ↔
      memfs.ScattersSoundly (fd.inodeIn memfs) content.length lens fd.pos := by
  by_cases all : memfs.ReadsAll (fd.inodeIn memfs) (ranges content.length lens fd.pos)
  · rw [readvAsRead_of_readsAll held mounted reads whole position few all]
    constructor
    · exact fun closed => .inr ⟨all, closed⟩
    · intro stops
      rcases stops with ⟨range, errno, first, failed⟩ | ⟨_, closed⟩
      · obtain ⟨got, ran⟩ := all range (List.mem_of_mem_head? first)
        rw [ran] at failed
        cases failed
      · exact closed
  · obtain ⟨error, _, back⟩ := @scatter_of_failed memfsTable memfs fd.st.ino.toUInt32 contents fd.pos lens
      { ret := 0 } content mounted reads whole position (Int.le_refl 0) (by simp only; omega) all
    constructor
    · intro as
      have kept := as.kept _ (by rw [tebakoReadv_eq held]) error
      rw [tebakoReadv_eq held] at kept
      exact .inl (back.mp ((moved_eq_iff held).mp kept))
    · intro whole
      rcases whole with first | ⟨every, _⟩
      · constructor
        · exact fun every => absurd every all
        · intro result _ _
          rw [tebakoReadv_eq held]
          exact (moved_eq_iff held).mpr (back.mpr first)
      · exact absurd every all

end Process

/-- `readv` is one `read`, and takes back what fails, if and only if no empty
buffer comes before ones that could be filled, and no read of the image fails
after one that did not. -/
theorem readv_as_read_iff (p : Process) (memfsTable : MemfsTable) (vfd : Int) (fd : TebakoFd)
    (memfs : Memfs) (contents : UInt32 → List UInt8) (lens : List Nat)
    (held : p.fdTable[vfd]? = some fd)
    (mounted : memfsTable[getFsIndex fd.st.ino.toUInt32.toUInt64]? = some memfs)
    (reads : memfs.fs.ReadsFrom contents) (position : fd.pos < 2 ^ 64) (few : lens.sum < 2 ^ 31) :
    p.ReadvAsRead memfsTable vfd lens fd memfs (contents (fd.inodeIn memfs)).length ↔
      memfs.ScattersSoundly (fd.inodeIn memfs) (contents (fd.inodeIn memfs)).length lens fd.pos :=
  Process.readvAsRead_iff held mounted reads rfl position few

theorem filled_readsAll {bytes : List UInt8} {asked : List (Nat × Nat)} :
    (filledMemfs bytes).ReadsAll 1 asked := fun _ _ => ⟨_, rfl⟩

/-- Two buffers of two bytes, for a file of three. -/
theorem two_buffers_as_read :
    (filledProcess [7, 8, 9]).ReadvAsRead (filledTable [7, 8, 9]) 1 [2, 2] (filledFd [7, 8, 9])
      (filledMemfs [7, 8, 9]) 3 := by
  have sound := readv_as_read_iff (filledProcess [7, 8, 9]) (filledTable [7, 8, 9]) 1 (filledFd [7, 8, 9])
    (filledMemfs [7, 8, 9]) (filledContents [7, 8, 9]) [2, 2] filled_held filled_mounted
    (filled_reads (by decide)) (by decide) (by decide)
  refine sound.mpr (.inr ⟨filled_readsAll, fun _ => ?_⟩)
  refine taken_eq_iff.mp ?_
  decide

/-- An empty buffer before one that is not: nothing is read. -/
theorem empty_buffer_ends_readv : ¬ ∀ (p : Process) (memfsTable : MemfsTable) (vfd : Int) (fd : TebakoFd)
    (memfs : Memfs) (contents : UInt32 → List UInt8) (lens : List Nat), p.fdTable[vfd]? = some fd →
      memfsTable[getFsIndex fd.st.ino.toUInt32.toUInt64]? = some memfs → memfs.fs.ReadsFrom contents →
      fd.pos < 2 ^ 64 → lens.sum < 2 ^ 31 →
      p.ReadvAsRead memfsTable vfd lens fd memfs (contents (fd.inodeIn memfs)).length := by
  intro always
  have as := always (filledProcess [7, 8, 9]) (filledTable [7, 8, 9]) 1 (filledFd [7, 8, 9])
    (filledMemfs [7, 8, 9]) (filledContents [7, 8, 9]) [0, 1] filled_held filled_mounted
    (filled_reads (by decide)) (by decide) (by decide)
  obtain ⟨same, _⟩ := as.same filled_readsAll filled_readsAll
  have first : ((filledProcess [7, 8, 9]).tebakoReadv (filledTable [7, 8, 9]) 1 (some [0, 1])).1 =
      .returned { ret := 0 } := by decide +kernel
  have second : ((filledProcess [7, 8, 9]).tebakoRead (filledTable [7, 8, 9]) 1 1).1 =
      .returned { ret := 1, stored := [7] } := by decide +kernel
  have outcomes := congrArg Prod.fst same
  rw [first, show ([0, 1] : List Nat).sum = 1 from rfl, second] at outcomes
  cases outcomes

end Tebako
