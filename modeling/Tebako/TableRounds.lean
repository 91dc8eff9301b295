import Tebako.Data.Overlap
import Tebako.OpenFiles
import Tebako.ProgramStreams

namespace Tebako

open Data Data.OrderedMap

/-! The calls on open files and on directory streams, round by round.

A call has a lock of its table from its first look on, and most calls share this
lock. What they move, the position of a file or the window of a stream, is moved
in a round of its own. -/

/-- The tables of descriptors and of streams. -/
structure Tables where
  fdTable : FdTable
  dsTable : DsTable

namespace Tables

def setFd (t : Tables) (vfd : Int) (fd : TebakoFd) : Tables :=
  { t with fdTable := Std.ExtTreeMap.insert t.fdTable vfd fd }

def setDs (t : Tables) (dirp : Nat) (ds : TebakoDs) : Tables :=
  { t with dsTable := Std.ExtTreeMap.insert t.dsTable dirp ds }

end Tables

inductive TableCall where
  | file (vfd : Int) (call : FileCall)
  | opendir (vfd : Int) (into : StreamMemory)
  | closedir (dirp : Nat)
  | telldir (dirp : Nat)
  | seekdir (dirp : Nat) (pos : Int64)
  | dirfd (dirp : Nat)
  | readdir (dirp : Nat)

inductive TableAnswer where
  | file (answer : FileAnswer)
  | stream (address size : Nat)
  | number (value : Int)
  | entry (ret : Int) (handed : Option TebakoDs.Handed)

/-- The methods of both tables, one after the other. -/
def tableCallStep (memfsTable : MemfsTable) : Machine Tables TableCall TableAnswer
  | .file vfd call, t =>
      let (answer, fdTable) := fileStep memfsTable (vfd, call) t.fdTable
      (.file answer, { t with fdTable := fdTable })
  | .opendir vfd into, t =>
      let (address, size, dsTable) := t.dsTable.opendir t.fdTable memfsTable vfd into.address into.memory
      (.stream address size, { t with dsTable := dsTable })
  | .closedir dirp, t =>
      let (ret, dsTable, fdTable) := t.dsTable.closedir t.fdTable dirp
      (.number ret, ⟨fdTable, dsTable⟩)
  | .telldir dirp, t => (.number (t.dsTable.telldir dirp), t)
  | .seekdir dirp pos, t =>
      let (ret, dsTable) := t.dsTable.seekdir dirp pos.toInt
      (.number ret, { t with dsTable := dsTable })
  | .dirfd dirp, t => (.number (t.dsTable.dirfd dirp), t)
  | .readdir dirp, t =>
      let ((ret, handed), dsTable) := t.dsTable.readdir t.fdTable memfsTable dirp
      (.entry ret handed, { t with dsTable := dsTable })

/-- Where a call is: it has its lock and has not looked yet, it has read and is
about to move the position, it is at the head of the loop of `readv` or about to
move the position there, its new stream is loaded and not in the table yet, or
its entry is in the window and the position is about to be moved. -/
inductive TableRound where
  | start (call : TableCall)
  | read (vfd : Int) (result : CallResult)
  | readv (vfd : Int) (iov : List Nat) (result : CallResult)
  | scattered (vfd : Int) (iov : List Nat) (result next : CallResult)
  | opendir (address : Nat) (ds : TebakoDs)
  | readdir (dirp : Nat)

section Rounds

variable (memfsTable : MemfsTable)

/-- One round. A call that has found its descriptor or stream finds it again, by
the lock that it holds. -/
def tableRound : TableRound → Tables → Step TableRound TableAnswer × Tables
  | .start (.file vfd (.read nbyte)), t =>
      match t.fdTable[vfd]? with
      | none => (.halt (.file (.call .invalidFd)), t)
      | some fd =>
          let result := dwarfsInodeRead memfsTable fd.st.ino.toUInt32 nbyte (offT fd.pos)
          if 0 < result.ret then (.next (.read vfd result), t) else (.halt (.file (.call result)), t)
  | .start (.file vfd (.readv iov)), t =>
      match t.fdTable[vfd]? with
      | none => (.halt (.file (.call .invalidFd)), t)
      | some _ => (.next (.readv vfd iov { ret := 0 }), t)
  | .start (.opendir vfd into), t =>
      let (ret, ds) := (TebakoDs.make vfd into.memory).loadCache t.fdTable memfsTable 0 true
      if ret = dwarfsIoContinue then (.next (.opendir into.address ds), t) else (.halt (.stream 0 0), t)
  | .start (.readdir dirp), t =>
      match t.dsTable[dirp]? with
      | none => (.halt (.entry dwarfsInvalidFd none), t)
      | some ds =>
          if ds.dirPosition < 0 then (.halt (.entry dwarfsIoError none), t)
          else if ds.dirSize ≤ sizeT ds.dirPosition then (.halt (.entry dwarfsIoContinue none), t)
          else if ds.Misses then
            let (ret, ds) := ds.loadCache t.fdTable memfsTable (narrowInt ds.dirPosition) false
            if ret = dwarfsIoContinue then (.next (.readdir dirp), t.setDs dirp ds)
            else (.halt (.entry ret none), t.setDs dirp ds)
          else (.next (.readdir dirp), t)
  | .start call, t => (.halt (tableCallStep memfsTable call t).1, (tableCallStep memfsTable call t).2)
  | .read vfd result, t =>
      match t.fdTable[vfd]? with
      | none => (.halt (.file (.call result)), t)
      | some fd => (.halt (.file (.call result)), t.setFd vfd { fd with pos := sizeT (fd.pos + result.ret) })
  | .readv _ [] result, t => (.halt (.file (.call result)), t)
  | .readv vfd (len :: rest) result, t =>
      match t.fdTable[vfd]? with
      | none => (.halt (.file (.call result)), t)
      | some fd =>
          let next := dwarfsInodeRead memfsTable fd.st.ino.toUInt32 len (offT fd.pos)
          let stored := result.stored ++ next.stored
          if 0 < next.ret then (.next (.scattered vfd rest result next), t)
          else if next.ret < 0 then
            (.halt (.file (.call { next with ret := dwarfsIoError, stored := stored })), t)
          else (.halt (.file (.call { result with stored := stored })), t)
  | .scattered vfd rest result next, t =>
      match t.fdTable[vfd]? with
      | none => (.halt (.file (.call result)), t)
      | some fd =>
          let stored := result.stored ++ next.stored
          if sizeT (offMax - next.ret) < fd.pos then
            (.halt (.file (.call { ret := dwarfsIoError, errno := some .EOVERFLOW, stored := stored })), t)
          else if offMax - next.ret < result.ret then
            (.halt (.file (.call { ret := dwarfsIoError, errno := some .EINVAL, stored := stored })), t)
          else
            (.next (.readv vfd rest { result with ret := result.ret + next.ret, stored := stored }),
              t.setFd vfd { fd with pos := sizeT (fd.pos + next.ret) })
  | .opendir address ds, t => (.halt (.stream address ds.dirSize), t.setDs address ds)
  | .readdir dirp, t =>
      match t.dsTable[dirp]? with
      | none => (.halt (.entry dwarfsIoContinue none), t)
      | some ds => (.halt (.entry dwarfsIoContinue (some ds.slot)), t.setDs dirp ds.advance)

/-- How many rounds a call takes at most. -/
def TableRound.left : TableRound → Nat
  | .start (.file _ (.readv iov)) => 2 * iov.length + 2
  | .start _ => 2
  | .readv _ iov _ => 2 * iov.length + 1
  | .scattered _ iov _ _ => 2 * iov.length + 2
  | .read _ _ => 1
  | .opendir _ _ => 1
  | .readdir _ => 1

/-- What a round can leave for the next one. -/
inductive TableRound.GoesOn : TableRound → TableRound → Prop where
  | read (vfd : Int) (nbyte : Nat) (result : CallResult) :
      GoesOn (.start (.file vfd (.read nbyte))) (.read vfd result)
  | readv (vfd : Int) (iov : List Nat) : GoesOn (.start (.file vfd (.readv iov))) (.readv vfd iov { ret := 0 })
  | scattered (vfd : Int) (len : Nat) (rest : List Nat) (result next : CallResult) :
      GoesOn (.readv vfd (len :: rest) result) (.scattered vfd rest result next)
  | again (vfd : Int) (rest : List Nat) (result next after : CallResult) :
      GoesOn (.scattered vfd rest result next) (.readv vfd rest after)
  | opendir (vfd : Int) (into : StreamMemory) (ds : TebakoDs) :
      GoesOn (.start (.opendir vfd into)) (.opendir into.address ds)
  | readdir (dirp : Nat) : GoesOn (.start (.readdir dirp)) (.readdir dirp)

theorem tableRound_goesOn {call next : TableRound} {t : Tables}
    (goes : (tableRound memfsTable call t).1 = .next next) : call.GoesOn next := by
  revert goes
  fun_cases tableRound memfsTable call t <;> intro goes <;> cases goes <;> constructor

def tableRounds : Rounds Tables TableRound TableAnswer where
  round := tableRound memfsTable
  left := TableRound.left
  fewer goes := by
    cases tableRound_goesOn memfsTable goes <;> simp only [TableRound.left, List.length_cons] <;> omega

/-! ## A call that is not disturbed -/

variable {memfsTable} {t : Tables} {vfd : Int} {fd : TebakoFd} {dirp : Nat} {ds : TebakoDs}

theorem Tables.setFd_same (held : t.fdTable[vfd]? = some fd) : t.setFd vfd fd = t := by
  simp only [Tables.setFd, insert_eq_self_iff.mpr held]

theorem Tables.setFd_setFd {other : TebakoFd} : (t.setFd vfd fd).setFd vfd other = t.setFd vfd other := by
  simp only [Tables.setFd, insert_insert]

theorem Tables.setFd_getElem? : (t.setFd vfd fd).fdTable[vfd]? = some fd := by
  simp only [Tables.setFd, Std.ExtTreeMap.getElem?_insert_self]

theorem Tables.setDs_same (held : t.dsTable[dirp]? = some ds) : t.setDs dirp ds = t := by
  simp only [Tables.setDs, insert_eq_self_iff.mpr held]

theorem Tables.setDs_setDs {other : TebakoDs} : (t.setDs dirp ds).setDs dirp other = t.setDs dirp other := by
  simp only [Tables.setDs, insert_insert]

theorem Tables.setDs_getElem? : (t.setDs dirp ds).dsTable[dirp]? = some ds := by
  simp only [Tables.setDs, Std.ExtTreeMap.getElem?_insert_self]

/-- The loop of `readv`, from any buffer on. -/
theorem whole_readv (iov : List Nat) (result : CallResult) (held : t.fdTable[vfd]? = some fd) :
    (tableRounds memfsTable).whole (.readv vfd iov result) t =
      (.file (.call (FdTable.scatter memfsTable fd.st.ino.toUInt32 iov fd.pos result).2),
        t.setFd vfd { fd with pos := (FdTable.scatter memfsTable fd.st.ino.toUInt32 iov fd.pos result).1 }) := by
  induction iov generalizing t fd result with
  | nil =>
      have ends : (tableRounds memfsTable).round (.readv vfd [] result) t = (.halt (.file (.call result)), t) := rfl
      rw [Rounds.whole_of_halt ends, FdTable.scatter, Tables.setFd_same held]
  | cons len rest ih =>
      generalize read : dwarfsInodeRead memfsTable fd.st.ino.toUInt32 len (offT fd.pos) = next
      generalize all : FdTable.scatter memfsTable fd.st.ino.toUInt32 (len :: rest) fd.pos result = scattered
      rw [FdTable.scatter, read] at all
      by_cases positive : 0 < next.ret
      · have first : (tableRounds memfsTable).round (.readv vfd (len :: rest) result) t =
            (.next (.scattered vfd rest result next), t) := by
          simp only [tableRounds, tableRound, held, read, positive, ↓reduceIte]
        simp only [positive, ↓reduceIte] at all
        rw [Rounds.whole_of_next first]
        by_cases beyond : sizeT (offMax - next.ret) < fd.pos
        · simp only [beyond, ↓reduceIte] at all
          cases all
          rw [Tables.setFd_same held]
          exact Rounds.whole_of_halt (by simp only [tableRounds, tableRound, held, beyond, ↓reduceIte])
        · by_cases overflows : offMax - next.ret < result.ret
          · simp only [beyond, overflows, ↓reduceIte] at all
            cases all
            rw [Tables.setFd_same held]
            exact Rounds.whole_of_halt (by simp only [tableRounds, tableRound, held, beyond, overflows, ↓reduceIte])
          · simp only [beyond, overflows, ↓reduceIte] at all
            have moves : (tableRounds memfsTable).round (.scattered vfd rest result next) t =
                (.next (.readv vfd rest ⟨result.ret + next.ret, result.errno, result.stored ++ next.stored⟩),
                  t.setFd vfd { fd with pos := sizeT (fd.pos + next.ret) }) := by
              simp only [tableRounds, tableRound, held, beyond, overflows, ↓reduceIte]
            rw [Rounds.whole_of_next moves, ih _ Tables.setFd_getElem?, Tables.setFd_setFd, all]
      · simp only [positive, ↓reduceIte] at all
        by_cases negative : next.ret < 0
        · simp only [negative, ↓reduceIte] at all
          cases all
          rw [Tables.setFd_same held]
          exact Rounds.whole_of_halt (by simp only [tableRounds, tableRound, held, read, positive, negative, ↓reduceIte])
        · simp only [negative, ↓reduceIte] at all
          cases all
          rw [Tables.setFd_same held]
          exact Rounds.whole_of_halt (by simp only [tableRounds, tableRound, held, read, positive, negative, ↓reduceIte])

/-- A stream that has its entry in the window. -/
theorem whole_readdir_entry (held : t.dsTable[dirp]? = some ds) :
    (tableRounds memfsTable).whole (.readdir dirp) t =
      (.entry dwarfsIoContinue (some ds.slot), t.setDs dirp ds.advance) := by
  apply Rounds.whole_of_halt
  simp only [tableRounds, tableRound, held]

theorem whole_readdir (held : t.dsTable[dirp]? = some ds) :
    (tableRounds memfsTable).whole (.start (.readdir dirp)) t =
      (.entry (ds.readdir t.fdTable memfsTable).1.1 (ds.readdir t.fdTable memfsTable).1.2,
        t.setDs dirp (ds.readdir t.fdTable memfsTable).2) := by
  generalize all : ds.readdir t.fdTable memfsTable = result
  unfold TebakoDs.readdir at all
  by_cases negative : ds.dirPosition < 0
  · simp only [negative, ↓reduceIte] at all
    cases all
    rw [Tables.setDs_same held]
    exact Rounds.whole_of_halt (by simp only [tableRounds, tableRound, held, negative, ↓reduceIte])
  · by_cases read : ds.dirSize ≤ sizeT ds.dirPosition
    · simp only [negative, read, ↓reduceIte] at all
      cases all
      rw [Tables.setDs_same held]
      exact Rounds.whole_of_halt (by simp only [tableRounds, tableRound, held, negative, read, ↓reduceIte])
    · by_cases misses : ds.Misses
      · generalize load : ds.loadCache t.fdTable memfsTable (narrowInt ds.dirPosition) false = loaded at all
        obtain ⟨ret, into⟩ := loaded
        by_cases fine : ret = dwarfsIoContinue
        · simp only [negative, read, misses, fine, ↓reduceIte] at all
          cases all
          have first : (tableRounds memfsTable).round (.start (.readdir dirp)) t =
              (.next (.readdir dirp), t.setDs dirp into) := by
            simp only [tableRounds, tableRound, held, negative, read, misses, load, fine, ↓reduceIte]
          rw [Rounds.whole_of_next first, whole_readdir_entry Tables.setDs_getElem?, Tables.setDs_setDs]
        · simp only [negative, read, misses, fine, ↓reduceIte] at all
          cases all
          apply Rounds.whole_of_halt
          simp only [tableRounds, tableRound, held, negative, read, misses, load, fine, ↓reduceIte]
      · simp only [negative, read, misses, ↓reduceIte] at all
        cases all
        have first : (tableRounds memfsTable).round (.start (.readdir dirp)) t = (.next (.readdir dirp), t) := by
          simp only [tableRounds, tableRound, held, negative, read, misses, ↓reduceIte]
        rw [Rounds.whole_of_next first, whole_readdir_entry held]

theorem whole_read (nbyte : Nat) :
    (tableRounds memfsTable).whole (.start (.file vfd (.read nbyte))) t =
      tableCallStep memfsTable (.file vfd (.read nbyte)) t := by
  cases held : t.fdTable[vfd]? with
  | none =>
      have ends : (tableRounds memfsTable).round (.start (.file vfd (.read nbyte))) t =
          (.halt (.file (.call .invalidFd)), t) := by
        simp only [tableRounds, tableRound, held]
      rw [Rounds.whole_of_halt ends]
      simp only [tableCallStep, fileStep, FdTable.read, held]
  | some fd =>
      generalize read : dwarfsInodeRead memfsTable fd.st.ino.toUInt32 nbyte (offT fd.pos) = result
      by_cases positive : 0 < result.ret
      · have first : (tableRounds memfsTable).round (.start (.file vfd (.read nbyte))) t =
            (.next (.read vfd result), t) := by
          simp only [tableRounds, tableRound, held, read, positive, ↓reduceIte]
        have moves : (tableRounds memfsTable).round (.read vfd result) t = (.halt (.file (.call result)),
            t.setFd vfd { fd with pos := sizeT (fd.pos + result.ret) }) := by
          simp only [tableRounds, tableRound, held]
        rw [Rounds.whole_of_next first, Rounds.whole_of_halt moves]
        simp only [tableCallStep, fileStep, FdTable.read, held, read, positive, ↓reduceIte, Tables.setFd]
      · have ends : (tableRounds memfsTable).round (.start (.file vfd (.read nbyte))) t =
            (.halt (.file (.call result)), t) := by
          simp only [tableRounds, tableRound, held, read, positive, ↓reduceIte]
        rw [Rounds.whole_of_halt ends]
        simp only [tableCallStep, fileStep, FdTable.read, held, read, positive, ↓reduceIte]

theorem whole_opendir (into : StreamMemory) :
    (tableRounds memfsTable).whole (.start (.opendir vfd into)) t = tableCallStep memfsTable (.opendir vfd into) t := by
  generalize load : (TebakoDs.make vfd into.memory).loadCache t.fdTable memfsTable 0 true = loaded
  obtain ⟨ret, ds⟩ := loaded
  by_cases fine : ret = dwarfsIoContinue
  · have first : (tableRounds memfsTable).round (.start (.opendir vfd into)) t =
        (.next (.opendir into.address ds), t) := by
      simp only [tableRounds, tableRound, load, fine, ↓reduceIte]
    rw [Rounds.whole_of_next first, Rounds.whole_of_halt rfl]
    simp only [tableCallStep, DsTable.opendir, load, fine, ↓reduceIte, Tables.setDs]
  · have ends : (tableRounds memfsTable).round (.start (.opendir vfd into)) t = (.halt (.stream 0 0), t) := by
      simp only [tableRounds, tableRound, load, fine, ↓reduceIte]
    rw [Rounds.whole_of_halt ends]
    simp only [tableCallStep, DsTable.opendir, load, fine, ↓reduceIte]

/-- Alone, the rounds of a call come to what its method does. -/
theorem whole_start (call : TableCall) (t : Tables) :
    (tableRounds memfsTable).whole (.start call) t = tableCallStep memfsTable call t := by
  cases call with
  | file vfd call =>
      cases call with
      | read nbyte => exact whole_read nbyte
      | readv iov =>
          cases held : t.fdTable[vfd]? with
          | none =>
              have ends : (tableRounds memfsTable).round (.start (.file vfd (.readv iov))) t =
                  (.halt (.file (.call .invalidFd)), t) := by
                simp only [tableRounds, tableRound, held]
              rw [Rounds.whole_of_halt ends]
              simp only [tableCallStep, fileStep, FdTable.readv, held]
          | some fd =>
              have first : (tableRounds memfsTable).round (.start (.file vfd (.readv iov))) t =
                  (.next (.readv vfd iov { ret := 0 }), t) := by
                simp only [tableRounds, tableRound, held]
              rw [Rounds.whole_of_next first, whole_readv iov _ held]
              simp only [tableCallStep, fileStep, FdTable.readv, held, Tables.setFd]
      | openAs st => exact Rounds.whole_of_halt rfl
      | pread nbyte offset => exact Rounds.whole_of_halt rfl
      | lseek offset whence => exact Rounds.whole_of_halt rfl
      | flock operation => exact Rounds.whole_of_halt rfl
      | fstat => exact Rounds.whole_of_halt rfl
      | close => exact Rounds.whole_of_halt rfl
  | opendir vfd into => exact whole_opendir into
  | readdir dirp =>
      cases held : t.dsTable[dirp]? with
      | none =>
          have ends : (tableRounds memfsTable).round (.start (.readdir dirp)) t =
              (.halt (.entry dwarfsInvalidFd none), t) := by
            simp only [tableRounds, tableRound, held]
          rw [Rounds.whole_of_halt ends]
          simp only [tableCallStep, DsTable.readdir, held]
      | some ds =>
          rw [whole_readdir held]
          simp only [tableCallStep, DsTable.readdir, held, Tables.setDs]
  | closedir dirp => exact Rounds.whole_of_halt rfl
  | telldir dirp => exact Rounds.whole_of_halt rfl
  | seekdir dirp pos => exact Rounds.whole_of_halt rfl
  | dirfd dirp => exact Rounds.whole_of_halt rfl

end Rounds

end Tebako
