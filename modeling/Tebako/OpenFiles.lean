import Tebako.Data.Keyed
import Tebako.Data.OpenFile
import Tebako.FileSeek
import Tebako.ScatterReads

namespace Tebako

open Data Data.OrderedMap Data.Keyed Data.OpenFile

/-! What a program sees of the table of descriptors: files that are open
independently of each other, each with its own position. -/

/-- The calls on one descriptor. `openAs` is an opening that has found a file and
gets this number. -/
inductive FileCall where
  | openAs (st : FileStat)
  | read (nbyte : Nat)
  | pread (nbyte offset : Nat)
  | readv (iov : List Nat)
  | lseek (offset : Int64) (whence : Int)
  | flock (operation : BitVec 32)
  | fstat
  | close

inductive FileAnswer where
  | opened (answer : OpenAnswer)
  | call (result : CallResult)
  | stat (st : Option FileStat)
  | closed (ret : Int)

section Steps

variable (memfsTable : MemfsTable)

/-- The methods of the table, as long as the images stay mounted. -/
def fileStep : Machine FdTable (Int × FileCall) FileAnswer
  | (vfd, .openAs st), table =>
      (.opened (table.openFound (.ok (.inode st)) 0 vfd).1, (table.openFound (.ok (.inode st)) 0 vfd).2)
  | (vfd, .read nbyte), table => (.call (table.read memfsTable vfd nbyte).1, (table.read memfsTable vfd nbyte).2)
  | (vfd, .pread nbyte offset), table => (.call (table.pread memfsTable vfd nbyte offset), table)
  | (vfd, .readv iov), table =>
      (.call (table.readv memfsTable vfd (some iov)).1, (table.readv memfsTable vfd (some iov)).2)
  | (vfd, .lseek offset whence), table =>
      (.call (table.lseek vfd offset.toInt whence).1, (table.lseek vfd offset.toInt whence).2)
  | (vfd, .flock operation), table => (.call (table.flock vfd operation).1, (table.flock vfd operation).2)
  | (vfd, .fstat), table => (.stat (table.fstat vfd), table)
  | (vfd, .close), table => (.closed (table.close vfd).1, (table.close vfd).2)

/-- What the calls do with the descriptor that they find. -/
def TebakoFd.step (fd : TebakoFd) : FileCall → CallResult × TebakoFd
  | .read nbyte =>
      let result := dwarfsInodeRead memfsTable fd.st.ino.toUInt32 nbyte (offT fd.pos)
      (result, if 0 < result.ret then { fd with pos := sizeT (fd.pos + result.ret) } else fd)
  | .pread nbyte offset => (dwarfsInodeRead memfsTable fd.st.ino.toUInt32 nbyte offset, fd)
  | .readv iov =>
      let (pos, result) := FdTable.scatter memfsTable fd.st.ino.toUInt32 iov fd.pos { ret := 0 }
      (result, { fd with pos := pos })
  | .lseek offset whence => FdTable.seek fd offset.toInt whence
  | .flock operation =>
      ({ ret := dwarfsIoContinue },
        { fd with lock := (operation &&& ~~~(FdTable.lockNb ||| FdTable.lockUn)).toInt })
  | _ => (.invalidFd, fd)

/-- One number of the table by itself. -/
def descriptorStep (vfd : Int) : Machine (Option TebakoFd) FileCall FileAnswer
  | .openAs st, fd =>
      if vfd = dwarfsIoError then (.opened .exhausted, fd)
      else (.opened (.opened vfd), some ⟨st, 0, 0, vfd⟩)
  | .fstat, fd => (.stat (fd.map (·.st)), fd)
  | .close, fd => (.closed (if fd.isSome then dwarfsIoContinue else dwarfsInvalidFd), none)
  | _, none => (.call .invalidFd, none)
  | call, some fd => (.call (fd.step memfsTable call).1, some (fd.step memfsTable call).2)

end Steps

def FdTable.find (table : FdTable) (vfd : Int) : Option TebakoFd := table[vfd]?

variable {memfsTable : MemfsTable} {table : FdTable} {vfd : Int} {fd : TebakoFd} {call : FileCall}

/-- A call that finds a descriptor, or none. -/
theorem fileStep_eq (table : FdTable) (vfd : Int) (call : FileCall) :
    (fileStep memfsTable (vfd, call) table).1 = (descriptorStep memfsTable vfd call table[vfd]?).1 ∧
      (fileStep memfsTable (vfd, call) table).2[vfd]? = (descriptorStep memfsTable vfd call table[vfd]?).2 ∧
      ∀ other, other ≠ vfd → (fileStep memfsTable (vfd, call) table).2[other]? = table[other]? := by
  have writes : (0 : UInt32) &&& oWrite = 0 := by decide
  have directory : (0 : UInt32) &&& oDirectory = 0 := by decide
  have nofollow : (0 : UInt32) &&& oNofollow = 0 := by decide
  cases call with
  | openAs st =>
      simp only [fileStep, descriptorStep, FdTable.openFound, writes, directory, nofollow, ne_eq,
        not_true_eq_false, and_false, ↓reduceIte]
      by_cases full : vfd = dwarfsIoError
      · simp [full]
      · simp only [full, ↓reduceIte, Std.ExtTreeMap.getElem?_insert_self, true_and]
        exact fun other different => getElem?_insert_ne different
  | fstat => simp [fileStep, descriptorStep, FdTable.fstat]
  | close =>
      simp only [fileStep, descriptorStep, FdTable.close, Std.ExtTreeMap.getElem?_erase_self, true_and,
        Std.ExtTreeMap.mem_iff_isSome_getElem?]
      exact fun other different => getElem?_erase_ne different
  | read nbyte =>
      cases held : table[vfd]? with
      | none => simp [fileStep, descriptorStep, FdTable.read, held]
      | some fd =>
          simp only [fileStep, descriptorStep, FdTable.read, held, TebakoFd.step]
          split
          · simp only [Std.ExtTreeMap.getElem?_insert_self, true_and]
            exact fun other different => getElem?_insert_ne different
          · simp [held]
  | pread nbyte offset =>
      cases held : table[vfd]? with
      | none => simp [fileStep, descriptorStep, FdTable.pread, held]
      | some fd => simp [fileStep, descriptorStep, FdTable.pread, held, TebakoFd.step]
  | readv iov =>
      cases held : table[vfd]? with
      | none => simp [fileStep, descriptorStep, FdTable.readv, held]
      | some fd =>
          simp only [fileStep, descriptorStep, FdTable.readv, held, TebakoFd.step,
            Std.ExtTreeMap.getElem?_insert_self, true_and]
          exact fun other different => getElem?_insert_ne different
  | lseek offset whence =>
      cases held : table[vfd]? with
      | none => simp [fileStep, descriptorStep, FdTable.lseek, held]
      | some fd =>
          simp only [fileStep, descriptorStep, FdTable.lseek, held, TebakoFd.step,
            Std.ExtTreeMap.getElem?_insert_self, true_and]
          exact fun other different => getElem?_insert_ne different
  | flock operation =>
      cases held : table[vfd]? with
      | none => simp [fileStep, descriptorStep, FdTable.flock, held]
      | some fd =>
          simp only [fileStep, descriptorStep, FdTable.flock, held, TebakoFd.step,
            Std.ExtTreeMap.getElem?_insert_self, true_and]
          exact fun other different => getElem?_insert_ne different

theorem fileStep_independent : Independent (fileStep memfsTable) FdTable.find (descriptorStep memfsTable) where
  answer vfd call table := (fileStep_eq table vfd call).1
  here vfd call table := (fileStep_eq table vfd call).2.1
  elsewhere vfd call table other different := (fileStep_eq table vfd call).2.2 other different

/-! ## Files and their bytes -/

/-- What there is to read in the inodes of the images: bytes, or an error. -/
abbrev ImageData := UInt32 → UInt32 → Except Errno (List UInt8)

/-- Reads give the bytes that there are, for every size and offset. -/
structure ImageData.Backs (data : ImageData) (memfsTable : MemfsTable) : Prop where
  read : ∀ {index : UInt32} {memfs : Memfs}, memfsTable[index]? = some memfs → ∀ inode size start,
    memfs.fs.read inode size start = (data index inode).map fun content => slice content start size
  size : ∀ {index inode : UInt32} {content : List UInt8}, data index inode = .ok content →
    (content.length : Int) ≤ offMax

def ImageData.content (data : ImageData) (memfsTable : MemfsTable) (ino : UInt32) :
    Except Errno (List UInt8) :=
  match memfsTable[getFsIndex ino.toUInt64]? with
  | none => .error .ENOENT
  | some memfs => data (getFsIndex ino.toUInt64) (ino - memfs.dwarfsRootInode)

abbrev MemfsFile := OpenFile FileStat UInt8 Errno

def whenceOf (whence : Int) : Option Whence :=
  if whence = FdTable.seekSet then some .set
  else if whence = FdTable.seekCur then some .cur
  else if whence = FdTable.seekEnd then some .last
  else none

/-- The call on an open file that a call on a descriptor is. -/
def FileCall.op (data : ImageData) (memfsTable : MemfsTable) : FileCall → OpenFile.Op FileStat UInt8 Errno
  | .openAs st => .open st (data.content memfsTable st.ino.toUInt32) st.size
  | .read nbyte => .read nbyte
  | .pread nbyte offset => .readAt offset nbyte
  | .readv iov => .readInto iov
  | .lseek offset whence => .seek offset.toInt (whenceOf whence)
  | .flock _ => .lock
  | .fstat => .info
  | .close => .close

/-- How the answer is returned to the program. -/
def fileAnswer (vfd : Int) : FileCall → OpenFile.Answer FileStat UInt8 Errno → FileAnswer
  | .openAs _, _ => .opened (.opened vfd)
  | .fstat, .info st => .stat (some st)
  | .fstat, _ => .stat none
  | .close, .done => .closed dwarfsIoContinue
  | .close, _ => .closed dwarfsInvalidFd
  | _, .bytes got => .call (.counting got)
  | _, .failed errno => .call (.error errno)
  | _, .moved pos => .call { ret := pos }
  | _, .negative => .call (.error .EINVAL)
  | _, .tooLarge => .call (.error .EOVERFLOW)
  | _, .notOpen => .call .invalidFd
  | _, _ => .call { ret := dwarfsIoContinue }

/-- An `int` counts what a read finds, no empty buffer of `readv` comes before
the end of the file with others behind it, and no offset without an opposite is
added. -/
def CallFits (file : Option MemfsFile) : OpenFile.Op FileStat UInt8 Errno → Prop
  | .open _ _ size => (size : Int) ≤ offMax
  | .read count => ∀ f content, file = some f → f.content = .ok content →
      (slice content f.pos count).length < 2 ^ 31
  | .readAt start count => (start : Int) ≤ offMax ∧ ∀ f content, file = some f → f.content = .ok content →
      (slice content start count).length < 2 ^ 31
  | .readInto counts => counts ≠ [] ∧ counts.sum < 2 ^ 31 ∧ ∀ f content, file = some f →
      f.content = .ok content → ¬ Segments.Gap content.length counts f.pos
  | .seek offset whence => offset = -2 ^ 63 → whence ≠ some .cur ∧ whence ≠ some .last
  | _ => True

/-- The descriptor is this file. -/
structure Shows (data : ImageData) (memfsTable : MemfsTable) (fd : TebakoFd) (file : MemfsFile) : Prop where
  info : file.info = fd.st
  content : file.content = data.content memfsTable fd.st.ino.toUInt32
  size : file.size = fd.st.size
  pos : file.pos = fd.pos
  sizeFits : (file.size : Int) ≤ offMax
  posFits : (file.pos : Int) ≤ offMax

def Showing (data : ImageData) (memfsTable : MemfsTable) : Option TebakoFd → Option MemfsFile → Prop
  | none, none => True
  | some fd, some file => Shows data memfsTable fd file
  | _, _ => False

section Reads

variable {data : ImageData} {ino : UInt32} {size start : Nat} {offset : Int} {content : List UInt8}
variable {errno : Errno} {file : MemfsFile} {iov : List Nat}

theorem inodeRead_of_error (backs : data.Backs memfsTable)
    (failed : data.content memfsTable ino = .error errno) :
    dwarfsInodeRead memfsTable ino size offset = .error errno := by
  cases mounted : memfsTable[getFsIndex ino.toUInt64]? with
  | none =>
      simp only [ImageData.content, mounted, Except.error.injEq] at failed
      simp only [dwarfsInodeRead, mounted, failed]
  | some memfs =>
      simp only [ImageData.content, mounted] at failed
      apply inodeRead_error mounted
      rw [backs.read mounted, failed]
      rfl

/-- The image that has the content of an inode. -/
theorem mounted_of_content (backs : data.Backs memfsTable)
    (found : data.content memfsTable ino = .ok content) :
    ∃ memfs, memfsTable[getFsIndex ino.toUInt64]? = some memfs ∧
      (∀ size start, memfs.fs.read (ino - memfs.dwarfsRootInode) size start = .ok (slice content start size)) ∧
      (content.length : Int) ≤ offMax := by
  cases mounted : memfsTable[getFsIndex ino.toUInt64]? with
  | none => simp [ImageData.content, mounted] at found
  | some memfs =>
      simp only [ImageData.content, mounted] at found
      refine ⟨memfs, rfl, fun size start => ?_, backs.size found⟩
      rw [backs.read mounted, found]
      rfl

theorem inodeRead_of_content (backs : data.Backs memfsTable)
    (found : data.content memfsTable ino = .ok content) (there : sizeT offset = start)
    (few : (slice content start size).length < 2 ^ 31) :
    dwarfsInodeRead memfsTable ino size offset = .counting (slice content start size) := by
  obtain ⟨memfs, mounted, reads, _⟩ := mounted_of_content backs found
  apply (inodeRead_counting_iff mounted _).mpr few
  rw [there]
  exact reads size start

/-- What the image promises of all its inodes. -/
theorem readsFrom_of_backs (backs : data.Backs memfsTable) {index : UInt32} {memfs : Memfs}
    (mounted : memfsTable[index]? = some memfs) :
    memfs.fs.ReadsFrom fun inode => ((data index inode).toOption).getD [] where
  read {inode size offset got} ran := by
    rw [backs.read mounted] at ran
    cases found : data index inode with
    | error errno => simp [found, Except.map] at ran
    | ok content =>
        simp only [found, Except.map, Except.ok.injEq] at ran
        exact ran.symm
  size inode := by
    cases found : data index inode with
    | error errno => exact (show ((0 : Nat) : Int) ≤ offMax by decide)
    | ok content => exact backs.size found

theorem Shows.read (shows : Shows data memfsTable fd file) (backs : data.Backs memfsTable)
    (fits : CallFits (some file) (.read size)) :
    descriptorStep memfsTable vfd (.read size) (some fd) =
        (fileAnswer vfd (.read size) (file.readOn size).1, some (fd.step memfsTable (.read size)).2) ∧
      Shows data memfsTable (fd.step memfsTable (.read size)).2 (file.readOn size).2 := by
  have position := shows.posFits
  rw [shows.pos] at position
  cases found : data.content memfsTable fd.st.ino.toUInt32 with
  | error errno =>
      have content := shows.content.trans found
      have failed := @inodeRead_of_error memfsTable data fd.st.ino.toUInt32 size (offT fd.pos) errno backs found
      have negative : ¬ 0 < (CallResult.error errno).ret := by simp [CallResult.error, dwarfsIoError]
      simp only [descriptorStep, TebakoFd.step, failed, negative, ↓reduceIte, OpenFile.readOn, content, fileAnswer,
        true_and]
      exact shows
  | ok bytes =>
      have content := shows.content.trans found
      have few := fits file bytes rfl content
      rw [shows.pos] at few
      have read := inodeRead_of_content backs found (sizeT_offT (by unfold offMax at position; omega)) few
      obtain ⟨_, _, _, short⟩ := mounted_of_content backs found
      have length := @length_slice UInt8 bytes fd.pos size
      have moved : (if 0 < (CallResult.counting (slice bytes fd.pos size)).ret then
          { fd with pos := sizeT (fd.pos + (CallResult.counting (slice bytes fd.pos size)).ret) } else fd) =
          { fd with pos := fd.pos + (slice bytes fd.pos size).length } := by
        by_cases positive : 0 < (CallResult.counting (slice bytes fd.pos size)).ret
        · rw [if_pos positive]
          simp only [CallResult.counting]
          rw [position_moved (by omega)]
        · rw [if_neg positive]
          simp only [CallResult.counting] at positive
          have nothing : (slice bytes fd.pos size).length = 0 := by omega
          rw [nothing, Nat.add_zero]
      simp only [descriptorStep, TebakoFd.step, read, moved, OpenFile.readOn, content, fileAnswer, shows.pos,
        true_and]
      exact ⟨shows.info, found.symm, shows.size, rfl, shows.sizeFits, by simp only; omega⟩

theorem Shows.readAt (shows : Shows data memfsTable fd file) (backs : data.Backs memfsTable)
    (fits : CallFits (some file) (.readAt start size)) :
    dwarfsInodeRead memfsTable fd.st.ino.toUInt32 size start =
      match file.readAt start size with
      | .bytes got => .counting got
      | .failed errno => .error errno
      | _ => .invalidFd := by
  obtain ⟨inside, few⟩ := fits
  have there : sizeT (start : Int) = start := by
    have cast := @FdTable.sizeT_of_fits (start : Int) (Int.natCast_nonneg _) inside
    simpa using cast
  cases found : data.content memfsTable fd.st.ino.toUInt32 with
  | error errno =>
      simp only [OpenFile.readAt, shows.content.trans found]
      exact inodeRead_of_error backs found
  | ok bytes =>
      simp only [OpenFile.readAt, shows.content.trans found]
      exact inodeRead_of_content backs found there (few file bytes rfl (shows.content.trans found))

/-- The loop of `readv` stores what one read would. -/
theorem Shows.scatter (shows : Shows data memfsTable fd file) (backs : data.Backs memfsTable)
    (fits : CallFits (some file) (.readInto iov)) :
    FdTable.scatter memfsTable fd.st.ino.toUInt32 iov fd.pos { ret := 0 } =
      ((file.readOn iov.sum).2.pos,
        match (file.readOn iov.sum).1 with
        | .bytes got => .counting got
        | .failed errno => .error errno
        | _ => .invalidFd) := by
  obtain ⟨present, few, closed⟩ := fits
  have position := shows.posFits
  rw [shows.pos] at position
  cases found : data.content memfsTable fd.st.ino.toUInt32 with
  | error errno =>
      cases iov with
      | nil => exact absurd rfl present
      | cons len rest =>
          have failed := @inodeRead_of_error memfsTable data fd.st.ino.toUInt32 len (offT fd.pos) errno backs found
          rw [scatter_error failed]
          simp only [OpenFile.readOn, shows.content.trans found, shows.pos, CallResult.error]
  | ok bytes =>
      have content := shows.content.trans found
      obtain ⟨memfs, mounted, reads, short⟩ := mounted_of_content backs found
      have whole : ((data (getFsIndex fd.st.ino.toUInt32.toUInt64)
          (fd.st.ino.toUInt32 - memfs.dwarfsRootInode)).toOption).getD [] = bytes := by
        simp only [ImageData.content, mounted] at found
        rw [found]
        rfl
      have all : memfs.ReadsAll (fd.st.ino.toUInt32 - memfs.dwarfsRootInode)
          (Segments.ranges bytes.length iov fd.pos) := fun range _ => ⟨_, reads range.1 range.2⟩
      have zero : 0 ≤ ({ ret := 0 } : CallResult).ret := Int.le_refl 0
      have counted : ({ ret := 0 } : CallResult).ret + iov.sum < 2 ^ 31 := by simp only; omega
      have ran := scatter_of_readsAll mounted (readsFrom_of_backs backs mounted) whole
        (by unfold offMax at position; omega) zero counted all
      have gap := closed file bytes rfl content
      rw [shows.pos] at gap
      have count := Segments.taken_eq_iff.mpr gap
      have length := @length_slice UInt8 bytes fd.pos iov.sum
      have same : (bytes.drop fd.pos).take (min iov.sum (bytes.length - fd.pos)) = slice bytes fd.pos iov.sum := by
        rw [slice, List.take_eq_take_min, List.length_drop, Nat.min_assoc, Nat.min_self, ← List.length_drop,
          ← List.take_eq_take_min]
      rw [ran, count, same]
      simp only [OpenFile.readOn, content, shows.pos, CallResult.counting, List.nil_append, length, Int.zero_add]

end Reads

section Moves

variable {data : ImageData} {file : MemfsFile} {offset : Int64} {whence : Int}

/-- Positions are those of an `off_t`. -/
def fileLimit : Nat := 2 ^ 63 - 1

theorem seekTarget_eq (shows : Shows data memfsTable fd file) (offset : Int) :
    FdTable.seekTarget fd offset whence = (whenceOf whence).map (file.target offset) := by
  unfold FdTable.seekTarget whenceOf
  split
  · rfl
  · split
    · simp only [Option.map_some, target, shows.pos]
    · split
      · simp only [Option.map_some, target, shows.size]
      · rfl

theorem seeksLowest_of (lowest : FdTable.SeeksLowest offset.toInt whence) :
    offset.toInt = -2 ^ 63 ∧ (whenceOf whence = some .cur ∨ whenceOf whence = some .last) := by
  obtain ⟨least, rfl | rfl⟩ := lowest
  · exact ⟨least, .inl (by decide)⟩
  · exact ⟨least, .inr (by decide)⟩

/-- The arithmetic of `lseek` moves the position as it is to be moved. -/
theorem Shows.seek (shows : Shows data memfsTable fd file)
    (fits : CallFits (some file) (.seek offset.toInt (whenceOf whence))) :
    .call (FdTable.seek fd offset.toInt whence).1 =
        fileAnswer vfd (.lseek offset whence) (file.seek fileLimit offset.toInt (whenceOf whence)).1 ∧
      Shows data memfsTable (FdTable.seek fd offset.toInt whence).2
        (file.seek fileLimit offset.toInt (whenceOf whence)).2 := by
  have position := shows.posFits
  have size := shows.sizeFits
  rw [shows.pos] at position
  rw [shows.size] at size
  have range : FdTable.OffT offset.toInt := by
    have low := Int64.le_toInt offset
    have high := Int64.toInt_lt offset
    unfold FdTable.OffT offMax
    omega
  have plain : ¬ FdTable.SeeksLowest offset.toInt whence := by
    intro lowest
    obtain ⟨least, cur | last⟩ := seeksLowest_of lowest
    · exact (fits least).1 cur
    · exact (fits least).2 last
  rw [FdTable.seek_exact range position size plain, seekTarget_eq shows]
  cases kind : whenceOf whence with
  | none => exact ⟨rfl, shows⟩
  | some origin =>
      have limit : (fileLimit : Int) = offMax := by decide
      simp only [Option.map_some, FdTable.sought, OpenFile.seek, limit]
      by_cases negative : file.target offset.toInt origin < 0
      · simp only [negative, ↓reduceIte, fileAnswer, true_and]
        exact shows
      · by_cases large : offMax < file.target offset.toInt origin
        · simp only [negative, large, ↓reduceIte, fileAnswer, true_and]
          exact shows
        · simp only [negative, large, ↓reduceIte, fileAnswer]
          have whole : ((file.target offset.toInt origin).toNat : Int) = file.target offset.toInt origin :=
            Int.toNat_of_nonneg (by omega)
          refine ⟨by rw [whole], shows.info, shows.content, shows.size, rfl, shows.sizeFits, ?_⟩
          simp only [whole]
          omega

end Moves

section Calls

variable {data : ImageData} {file : MemfsFile} {opened : Option TebakoFd} {image : Option MemfsFile}

/-- The call is answered as the operation on the file, and the file stays shown. -/
structure Agrees (data : ImageData) (memfsTable : MemfsTable) (vfd : Int) (call : FileCall)
    (opened : Option TebakoFd) (image : Option MemfsFile) : Prop where
  answer : (descriptorStep memfsTable vfd call opened).1 =
    fileAnswer vfd call (OpenFile.step fileLimit (call.op data memfsTable) image).1
  next : Showing data memfsTable (descriptorStep memfsTable vfd call opened).2
    (OpenFile.step fileLimit (call.op data memfsTable) image).2

theorem openAs_agrees {st : FileStat} (free : vfd ≠ dwarfsIoError)
    (fits : CallFits image ((FileCall.openAs st).op data memfsTable)) :
    Agrees data memfsTable vfd (.openAs st) opened image where
  answer := by simp only [descriptorStep, free, ↓reduceIte, fileAnswer]
  next := by
    have shows : Shows data memfsTable ⟨st, 0, 0, vfd⟩ ⟨st, data.content memfsTable st.ino.toUInt32, st.size, 0⟩ :=
      { info := rfl, content := rfl, size := rfl, pos := rfl, sizeFits := fits
        posFits := show ((0 : Nat) : Int) ≤ offMax by decide }
    simp only [descriptorStep, free, ↓reduceIte, FileCall.op, OpenFile.step]
    exact shows

theorem closed_agrees (call : FileCall) (other : ∀ st, call ≠ .openAs st) :
    Agrees data memfsTable vfd call none none := by
  cases call with
  | openAs st => exact absurd rfl (other st)
  | read nbyte => exact ⟨rfl, trivial⟩
  | pread nbyte offset => exact ⟨rfl, trivial⟩
  | readv iov => exact ⟨rfl, trivial⟩
  | lseek offset whence => exact ⟨rfl, trivial⟩
  | flock operation => exact ⟨rfl, trivial⟩
  | fstat => exact ⟨rfl, trivial⟩
  | close => exact ⟨rfl, trivial⟩

theorem Shows.agrees (shows : Shows data memfsTable fd file) (backs : data.Backs memfsTable)
    (fits : CallFits (some file) (call.op data memfsTable)) (other : ∀ st, call ≠ .openAs st) :
    Agrees data memfsTable vfd call (some fd) (some file) := by
  cases call with
  | openAs st => exact absurd rfl (other st)
  | read nbyte =>
      obtain ⟨ran, next⟩ := @Shows.read memfsTable vfd fd data nbyte file shows backs fits
      constructor
      · rw [ran]
        rfl
      · rw [ran]
        exact next
  | pread nbyte offset =>
      constructor
      · simp only [descriptorStep, TebakoFd.step, Shows.readAt shows backs fits, FileCall.op, OpenFile.step]
        cases content : file.content with
        | error errno => simp only [OpenFile.readAt, content, fileAnswer]
        | ok bytes => simp only [OpenFile.readAt, content, fileAnswer]
      · exact shows
  | readv iov =>
      have ran := Shows.scatter shows backs fits
      have position := shows.posFits
      cases content : file.content with
      | error errno =>
          simp only [OpenFile.readOn, content] at ran
          constructor
          · simp only [descriptorStep, TebakoFd.step, ran, FileCall.op, OpenFile.step, OpenFile.readOn, content,
              fileAnswer]
          · simp only [descriptorStep, TebakoFd.step, ran, FileCall.op, OpenFile.step, OpenFile.readOn, content]
            exact { shows with pos := rfl }
      | ok bytes =>
          simp only [OpenFile.readOn, content] at ran
          constructor
          · simp only [descriptorStep, TebakoFd.step, ran, FileCall.op, OpenFile.step, OpenFile.readOn, content,
              fileAnswer]
          · simp only [descriptorStep, TebakoFd.step, ran, FileCall.op, OpenFile.step, OpenFile.readOn, content]
            obtain ⟨_, _, _, short⟩ := mounted_of_content backs (shows.content.symm.trans content)
            have length := @length_slice UInt8 bytes file.pos iov.sum
            refine { shows with pos := rfl, content := content.symm.trans shows.content, posFits := ?_ }
            simp only
            omega
  | lseek offset whence =>
      obtain ⟨ran, next⟩ := @Shows.seek memfsTable vfd fd data file offset whence shows fits
      exact ⟨ran, next⟩
  | flock operation => exact ⟨rfl, { shows with }⟩
  | fstat =>
      constructor
      · simp only [descriptorStep, Option.map_some, FileCall.op, OpenFile.step, fileAnswer, shows.info]
      · exact shows
  | close => exact ⟨rfl, trivial⟩

/-- Each call on a descriptor is answered as the operation on its file. -/
theorem descriptor_follows (backs : data.Backs memfsTable) (free : vfd ≠ dwarfsIoError) :
    Machine.Follows (descriptorStep memfsTable vfd) (OpenFile.step fileLimit)
      (FileCall.op data memfsTable) (fileAnswer vfd) CallFits (Showing data memfsTable) := by
  have agrees : ∀ {opened image} (call : FileCall), Showing data memfsTable opened image →
      CallFits image (call.op data memfsTable) → Agrees data memfsTable vfd call opened image := by
    intro opened image call showing fits
    by_cases opening : ∃ st, call = .openAs st
    · obtain ⟨st, rfl⟩ := opening
      exact openAs_agrees free fits
    · have other : ∀ st, call ≠ .openAs st := fun st same => opening ⟨st, same⟩
      cases opened with
      | none =>
          cases image with
          | none => exact closed_agrees call other
          | some file => exact showing.elim
      | some fd =>
          cases image with
          | none => exact showing.elim
          | some file => exact Shows.agrees showing backs fits other
  exact { answer := fun call showing fits => (agrees call showing fits).answer
          next := fun call showing fits => (agrees call showing fits).next }

end Calls

/-! ## All descriptors together -/

section Table

variable {data : ImageData}

/-- Whatever is done through the other descriptors, the answers on one are those
of a file that nobody else uses. -/
theorem descriptors_are_open_files (backs : data.Backs memfsTable) (ops : List (Int × FileCall)) (vfd : Int)
    (free : vfd ≠ dwarfsIoError)
    (fits : Machine.Allows (OpenFile.step fileLimit) CallFits ((opsAt vfd ops).map (FileCall.op data memfsTable))
      none) :
    answersAt vfd ops (Machine.answers (fileStep memfsTable) ops ∅) =
      List.zipWith (fileAnswer vfd) (opsAt vfd ops)
        (Machine.answers (OpenFile.step fileLimit) ((opsAt vfd ops).map (FileCall.op data memfsTable)) none) := by
  have empty : FdTable.find ∅ vfd = none := by simp only [FdTable.find, Std.ExtTreeMap.getElem?_empty]
  rw [fileStep_independent.answersAt_eq, empty]
  exact (descriptor_follows backs free).answers_eq trivial fits

end Table

section Filled

/-- The file of a filled image, and nothing else. -/
def filledData (bytes : List UInt8) : ImageData := fun _ inode =>
  if inode = 1 then .ok bytes else .error .EINVAL

variable {bytes : List UInt8}

theorem filled_backs (short : (bytes.length : Int) ≤ offMax) : (filledData bytes).Backs (filledTable bytes) where
  read {index memfs} mounted inode size start := by
    rcases getElem?_insert_iff.mp mounted with ⟨_, own⟩ | ⟨_, before⟩
    · cases own
      simp only [filledMemfs, filledImage, filledData, slice]
      split <;> rfl
    · simp only [Std.ExtTreeMap.getElem?_empty] at before
      cases before
  size {index inode content} found := by
    simp only [filledData] at found
    split at found
    · cases found
      exact short
    · cases found

theorem filled_content :
    (filledData bytes).content (filledTable bytes) (filledFd bytes).st.ino.toUInt32 = .ok bytes := by
  have inode : (filledFd bytes).st.ino.toUInt32 - (filledMemfs bytes).dwarfsRootInode = 1 := filled_inode
  simp only [ImageData.content, filled_mounted, filledData, inode, ↓reduceIte]

end Filled

/-- One file that is open twice, and read in turns. -/
def turns : List (Int × FileCall) :=
  let st := (filledFd [7, 8, 9]).st
  [(1, .openAs st), (2, .openAs st), (1, .read 2), (2, .readv [1, 2]), (1, .lseek (-1) FdTable.seekCur),
    (2, .close), (1, .pread 1 0), (1, .read 4), (2, .read 1)]

theorem turns_kept_apart :
    answersAt 1 turns (Machine.answers (fileStep (filledTable [7, 8, 9])) turns ∅) =
      [.opened (.opened 1), .call (.counting [7, 8]), .call { ret := 1 }, .call (.counting [7]),
        .call (.counting [8, 9])] := by
  have own : (opsAt 1 turns).map (FileCall.op (filledData [7, 8, 9]) (filledTable [7, 8, 9])) =
      [.open (filledFd [7, 8, 9]).st (.ok [7, 8, 9]) 3, .read 2, .seek (-1) (some .cur), .readAt 0 1, .read 4] := by
    rw [← filled_content]
    rfl
  have fits : Machine.Allows (OpenFile.step fileLimit) CallFits
      ((opsAt 1 turns).map (FileCall.op (filledData [7, 8, 9]) (filledTable [7, 8, 9]))) none := by
    have few : ∀ {start count : Nat} {content : List UInt8}, (.ok [7, 8, 9] : Except Errno (List UInt8)) = .ok content →
        (slice content start count).length < 2 ^ 31 := by
      intro start count content found
      cases found
      rw [length_slice]
      simp only [List.length_cons, List.length_nil]
      omega
    rw [own]
    refine ⟨show (3 : Int) ≤ offMax by decide, fun f content same found => ?_, fun least => absurd least (by decide),
      ⟨by decide, fun f content same found => ?_⟩, fun f content same found => ?_, trivial⟩
    · cases same
      exact few found
    · cases same
      exact few found
    · cases same
      exact few found
  rw [descriptors_are_open_files (filled_backs (by decide)) turns 1 (by decide) fits, own]
  rfl

end Tebako
