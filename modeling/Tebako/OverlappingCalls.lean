import Tebako.TableRounds

namespace Tebako

open Data Data.OrderedMap

/-! Files and directories that many threads read at the same time. -/

/-! ## What the calls touch -/

/-- `descriptors` is which numbers are open, and on which files. -/
inductive TablePart where
  | descriptors
  | position (vfd : Int)
  | lock (vfd : Int)
  | stream (dirp : Nat)

abbrev TablePart.Content : TablePart → Type
  | .descriptors => Int → Option (FileStat × Int)
  | .position _ => Option Nat
  | .lock _ => Option Int
  | .stream _ => Option TebakoDs

def Tables.part : (part : TablePart) → Tables → part.Content
  | .descriptors, t => fun vfd => t.fdTable[vfd]?.map fun fd => (fd.st, fd.handle)
  | .position vfd, t => t.fdTable[vfd]?.map (·.pos)
  | .lock vfd, t => t.fdTable[vfd]?.map (·.lock)
  | .stream dirp, t => t.dsTable[dirp]?

/-- What a call changes on an open file. -/
def FileCall.writes (vfd : Int) : FileCall → Set TablePart
  | .openAs _ => {.descriptors, .position vfd, .lock vfd}
  | .close => {.descriptors, .position vfd, .lock vfd}
  | .read _ => {.position vfd}
  | .readv _ => {.position vfd}
  | .lseek _ _ => {.position vfd}
  | .flock _ => {.lock vfd}
  | .pread _ _ => ∅
  | .fstat => ∅

namespace TableRound

def writes : TableRound → Set TablePart
  | .start (.file vfd call) => call.writes vfd
  | .start (.opendir _ into) => {.stream into.address}
  | .start (.closedir dirp) => {part | ∀ other, part = .stream other → other = dirp}
  | .start (.telldir _) => ∅
  | .start (.seekdir dirp _) => {.stream dirp}
  | .start (.dirfd _) => ∅
  | .start (.readdir dirp) => {.stream dirp}
  | .read vfd _ => {.position vfd}
  | .readv vfd _ _ => {.position vfd}
  | .scattered vfd _ _ _ => {.position vfd}
  | .opendir address _ => {.stream address}
  | .readdir dirp => {.stream dirp}

/-- What a call looks at and does not change. -/
def reads : TableRound → Set TablePart
  | .start (.file _ _) => {.descriptors}
  | .start (.opendir _ _) => {.descriptors}
  | .start (.telldir dirp) => {.stream dirp}
  | .start (.dirfd dirp) => {.stream dirp}
  | .start (.readdir _) => {.descriptors}
  | .read _ _ => {.descriptors}
  | .readv _ _ _ => {.descriptors}
  | .scattered _ _ _ _ => {.descriptors}
  | _ => ∅

def uses (round : TableRound) : Set TablePart := round.reads ∪ round.writes

/-- Two calls that may be under way together. Opening and closing have the table
of descriptors for themselves, by its lock. A position is moved by one call at a
time, a lock is set by one, and a stream that is opened, read, moved or closed by
one call is used by no other. -/
def Apart : TableRound → TableRound → Prop := Rounds.Apart uses writes

theorem GoesOn.fewer {call next : TableRound} (goes : call.GoesOn next) :
    next.uses ⊆ call.uses ∧ next.writes ⊆ call.writes := by
  cases goes <;> simp [uses, reads, writes, FileCall.writes]

end TableRound

section Footprint

variable {memfsTable : MemfsTable} {t other : Tables} {vfd : Int} {fd : TebakoFd} {dirp : Nat} {ds : TebakoDs}
variable {part : TablePart}

theorem Tables.ext_part (same : ∀ part, Tables.part part t = Tables.part part other) : t = other := by
  obtain ⟨fdTable, dsTable⟩ := t
  obtain ⟨otherFds, otherDs⟩ := other
  have files : fdTable = otherFds := by
    apply Std.ExtTreeMap.ext_getElem?
    intro vfd
    have descriptors := congrFun (same .descriptors) vfd
    have position := same (.position vfd)
    have lock := same (.lock vfd)
    simp only [part] at descriptors position lock
    cases held : fdTable[vfd]? with
    | none =>
        rw [held, Option.map_none] at position
        exact (Option.map_eq_none_iff.mp position.symm).symm
    | some fd =>
        rw [held, Option.map_some] at descriptors position lock
        obtain ⟨also, there, alike⟩ := Option.map_eq_some_iff.mp descriptors.symm
        rw [there, Option.map_some, Option.some.injEq] at position lock
        obtain ⟨st, pos, own, handle⟩ := fd
        obtain ⟨st', pos', own', handle'⟩ := also
        cases alike
        cases position
        cases lock
        exact there.symm
  have streams : dsTable = otherDs := Std.ExtTreeMap.ext_getElem? fun {dirp} => same (.stream dirp)
  rw [files, streams]

/-- An entry that is stored changes what differs from the one before. -/
theorem Tables.part_setFd {after : TebakoFd} (held : t.fdTable[vfd]? = some fd) (st : after.st = fd.st)
    (handle : after.handle = fd.handle) (pos : part = .position vfd → after.pos = fd.pos)
    (lock : part = .lock vfd → after.lock = fd.lock) : (t.setFd vfd after).part part = t.part part := by
  cases part with
  | descriptors =>
      funext number
      simp only [Tables.part, setFd]
      by_cases here : number = vfd
      · rw [here, held, Std.ExtTreeMap.getElem?_insert_self, Option.map_some, Option.map_some, st, handle]
      · rw [getElem?_insert_ne here]
  | position number =>
      simp only [Tables.part, setFd]
      by_cases here : number = vfd
      · rw [here, held, Std.ExtTreeMap.getElem?_insert_self, Option.map_some, Option.map_some, pos (by rw [here])]
      · rw [getElem?_insert_ne here]
  | lock number =>
      simp only [Tables.part, setFd]
      by_cases here : number = vfd
      · rw [here, held, Std.ExtTreeMap.getElem?_insert_self, Option.map_some, Option.map_some, lock (by rw [here])]
      · rw [getElem?_insert_ne here]
  | stream number => rfl

theorem Tables.part_setDs (elsewhere : part ≠ .stream dirp) : (t.setDs dirp ds).part part = t.part part := by
  cases part with
  | stream number =>
      have different : number ≠ dirp := fun same => elsewhere (by rw [same])
      exact getElem?_insert_ne different
  | descriptors => rfl
  | position number => rfl
  | lock number => rfl

theorem Tables.part_setFd_position : (t.setFd vfd fd).part (.position vfd) = some fd.pos := by
  simp only [Tables.part, Tables.setFd_getElem?, Option.map_some]

theorem Tables.part_setDs_stream : (t.setDs dirp ds).part (.stream dirp) = some ds := Tables.setDs_getElem?

/-- A position alone. -/
theorem Tables.part_setFd_moved (held : t.fdTable[vfd]? = some fd) (pos : Nat) (elsewhere : part ≠ .position vfd) :
    (t.setFd vfd { fd with pos := pos }).part part = t.part part :=
  Tables.part_setFd held rfl rfl (fun here => absurd here elsewhere) fun _ => rfl

theorem Tables.part_otherFds {fdTable : FdTable} (same : ∀ other, other ≠ vfd → fdTable[other]? = t.fdTable[other]?)
    (elsewhere : part ∉ ({.descriptors, .position vfd, .lock vfd} : Set TablePart)) :
    ({ t with fdTable := fdTable } : Tables).part part = t.part part := by
  simp only [Set.mem_insert_iff, Set.mem_singleton_iff, not_or] at elsewhere
  obtain ⟨descriptors, position, lock⟩ := elsewhere
  cases part with
  | descriptors => exact absurd rfl descriptors
  | position number =>
      have different : number ≠ vfd := fun here => position (by rw [here])
      simp only [Tables.part, same number different]
  | lock number =>
      have different : number ≠ vfd := fun here => lock (by rw [here])
      simp only [Tables.part, same number different]
  | stream number => rfl

theorem Tables.part_sameFds {fdTable : FdTable} {dsTable streams : DsTable} (same : dsTable[dirp]? = streams[dirp]?)
    (own : ∀ number, part = .stream number → number = dirp) :
    Tables.part part ⟨fdTable, dsTable⟩ = Tables.part part ⟨fdTable, streams⟩ := by
  cases part with
  | stream number =>
      cases own number rfl
      exact same
  | descriptors => rfl
  | position number => rfl
  | lock number => rfl

theorem seek_moves (fd : TebakoFd) (offset whence : Int) :
    ∃ pos, (FdTable.seek fd offset whence).2 = { fd with pos := pos } := by
  have moveBy : ∀ base offset (below : Prop) [Decidable below],
      ∃ pos, (FdTable.moveBy fd base offset below).2 = { fd with pos := pos } := by
    intro base offset below _
    unfold FdTable.moveBy
    split
    · exact ⟨fd.pos, rfl⟩
    · split
      · exact ⟨fd.pos, rfl⟩
      · exact ⟨_, rfl⟩
  unfold FdTable.seek
  split
  · split
    · exact ⟨fd.pos, rfl⟩
    · exact ⟨_, rfl⟩
  · split
    · exact moveBy _ _ _
    · split
      · exact moveBy _ _ _
      · exact ⟨fd.pos, rfl⟩

theorem file_keepsParts (vfd : Int) (call : FileCall) (elsewhere : part ∉ call.writes vfd) :
    (tableRound memfsTable (.start (.file vfd call)) t).2.part part = t.part part := by
  cases call with
  | openAs st => exact Tables.part_otherFds (@fileStep_eq memfsTable t.fdTable vfd (.openAs st)).2.2 elsewhere
  | close => exact Tables.part_otherFds (@fileStep_eq memfsTable t.fdTable vfd .close).2.2 elsewhere
  | read nbyte =>
      simp only [tableRound]
      split
      · rfl
      · split <;> rfl
  | readv iov =>
      simp only [tableRound]
      split <;> rfl
  | lseek offset whence =>
      cases held : t.fdTable[vfd]? with
      | none => simp only [tableRound, tableCallStep, fileStep, FdTable.lseek, held]
      | some fd =>
          obtain ⟨pos, moved⟩ := seek_moves fd offset.toInt whence
          simp only [tableRound, tableCallStep, fileStep, FdTable.lseek, held, moved]
          exact Tables.part_setFd_moved held pos elsewhere
  | flock operation =>
      cases held : t.fdTable[vfd]? with
      | none => simp only [tableRound, tableCallStep, fileStep, FdTable.flock, held]
      | some fd =>
          simp only [tableRound, tableCallStep, fileStep, FdTable.flock, held]
          exact Tables.part_setFd held rfl rfl (fun _ => rfl) fun here => absurd here elsewhere
  | pread nbyte offset => rfl
  | fstat => rfl

theorem closedir_keepsParts (elsewhere : part ∉ (TableRound.start (.closedir dirp)).writes) :
    (tableRound memfsTable (.start (.closedir dirp)) t).2.part part = t.part part := by
  cases part with
  | stream number =>
      have different : number ≠ dirp := fun same =>
        elsewhere fun other here => (TablePart.stream.inj here).symm.trans same
      cases held : t.dsTable[dirp]? with
      | none => simp only [tableRound, tableCallStep, DsTable.closedir, held]
      | some ds =>
          simp only [tableRound, tableCallStep, DsTable.closedir, held]
          exact getElem?_erase_ne different
  | descriptors => exact absurd (fun _ here => by cases here) elsewhere
  | position number => exact absurd (fun _ here => by cases here) elsewhere
  | lock number => exact absurd (fun _ here => by cases here) elsewhere

theorem readdir_keepsParts (elsewhere : part ≠ .stream dirp) :
    (tableRound memfsTable (.start (.readdir dirp)) t).2.part part = t.part part := by
  simp only [tableRound]
  split
  · rfl
  · split
    · rfl
    · split
      · rfl
      · split
        · split
          · exact Tables.part_setDs elsewhere
          · exact Tables.part_setDs elsewhere
        · rfl

/-- Nothing but what it writes is changed by a round. -/
theorem tableRound_keeps (call : TableRound) (elsewhere : part ∉ call.writes) :
    (tableRound memfsTable call t).2.part part = t.part part := by
  cases call with
  | start call =>
      cases call with
      | file vfd call => exact file_keepsParts vfd call elsewhere
      | opendir vfd into =>
          simp only [tableRound]
          split <;> rfl
      | closedir dirp => exact closedir_keepsParts elsewhere
      | telldir dirp => rfl
      | seekdir dirp pos =>
          cases held : t.dsTable[dirp]? with
          | none => simp only [tableRound, tableCallStep, DsTable.seekdir, held]
          | some ds =>
              simp only [tableRound, tableCallStep, DsTable.seekdir, held]
              exact Tables.part_setDs elsewhere
      | dirfd dirp => rfl
      | readdir dirp => exact readdir_keepsParts elsewhere
  | read vfd result =>
      simp only [tableRound]
      split
      · rfl
      · rename_i held
        exact Tables.part_setFd_moved held _ elsewhere
  | readv vfd iov result =>
      cases iov with
      | nil => rfl
      | cons len rest =>
          simp only [tableRound]
          split
          · rfl
          · split
            · rfl
            · split <;> rfl
  | scattered vfd rest result next =>
      simp only [tableRound]
      split
      · rfl
      · rename_i held
        split
        · rfl
        · split
          · rfl
          · exact Tables.part_setFd_moved held _ elsewhere
  | opendir address ds => exact Tables.part_setDs elsewhere
  | readdir dirp =>
      simp only [tableRound]
      split
      · rfl
      · exact Tables.part_setDs elsewhere

/-- A descriptor that is looked up in two tables with the same files open. -/
theorem looked_up (same : t.part .descriptors = other.part .descriptors) (vfd : Int) :
    t.fdTable[vfd]? = none ∧ other.fdTable[vfd]? = none ∨
      ∃ fd pos lock, t.fdTable[vfd]? = some fd ∧ other.fdTable[vfd]? = some { fd with pos := pos, lock := lock } := by
  have alike := congrFun same vfd
  simp only [Tables.part] at alike
  cases held : t.fdTable[vfd]? with
  | none =>
      rw [held, Option.map_none] at alike
      exact .inl ⟨rfl, Option.map_eq_none_iff.mp alike.symm⟩
  | some fd =>
      rw [held, Option.map_some] at alike
      obtain ⟨⟨st, pos, lock, handle⟩, there, file⟩ := Option.map_eq_some_iff.mp alike.symm
      cases file
      exact .inr ⟨fd, pos, lock, rfl, there⟩

/-- One that is looked up with its position. -/
theorem looked_up_at (same : t.part .descriptors = other.part .descriptors)
    (position : t.part (.position vfd) = other.part (.position vfd)) :
    t.fdTable[vfd]? = none ∧ other.fdTable[vfd]? = none ∨
      ∃ fd lock, t.fdTable[vfd]? = some fd ∧ other.fdTable[vfd]? = some { fd with lock := lock } := by
  rcases looked_up same vfd with missing | ⟨fd, pos, lock, held, there⟩
  · exact .inl missing
  · simp only [Tables.part, held, there, Option.map_some, Option.some.injEq] at position
    cases position
    exact .inr ⟨fd, lock, held, there⟩

theorem looked_up_whole (same : t.part .descriptors = other.part .descriptors)
    (position : t.part (.position vfd) = other.part (.position vfd))
    (lock : t.part (.lock vfd) = other.part (.lock vfd)) : t.fdTable[vfd]? = other.fdTable[vfd]? := by
  rcases looked_up_at same position with ⟨missing, absent⟩ | ⟨fd, own, held, there⟩
  · rw [missing, absent]
  · simp only [Tables.part, held, there, Option.map_some, Option.some.injEq] at lock
    cases lock
    rw [held, there]

theorem fdReaddir_alike (same : t.part .descriptors = other.part .descriptors) (vfd start : Int) (size : Nat)
    (into : DirCache) :
    t.fdTable.readdir memfsTable vfd start size into = other.fdTable.readdir memfsTable vfd start size into := by
  rcases looked_up same vfd with ⟨missing, absent⟩ | ⟨fd, pos, lock, held, there⟩
  · simp only [FdTable.readdir, missing, absent]
  · simp only [FdTable.readdir, held, there]

theorem loadCache_alike (same : t.part .descriptors = other.part .descriptors) (ds : TebakoDs) (start : Int)
    (setPos : Bool) :
    ds.loadCache t.fdTable memfsTable start setPos = ds.loadCache other.fdTable memfsTable start setPos := by
  simp only [TebakoDs.loadCache, fdReaddir_alike same]

theorem seek_lock (fd : TebakoFd) (lock offset whence : Int) :
    FdTable.seek { fd with lock := lock } offset whence =
      ((FdTable.seek fd offset whence).1, { (FdTable.seek fd offset whence).2 with lock := lock }) := by
  have moveBy : ∀ base offset (below : Prop) [Decidable below],
      FdTable.moveBy { fd with lock := lock } base offset below =
        ((FdTable.moveBy fd base offset below).1, { (FdTable.moveBy fd base offset below).2 with lock := lock }) := by
    intro base offset below _
    unfold FdTable.moveBy
    split
    · rfl
    · split <;> rfl
  unfold FdTable.seek
  split
  · split <;> rfl
  · split
    · exact moveBy _ _ _
    · split
      · exact moveBy _ _ _
      · rfl

/-- What a call makes of a state that is, where it looks, like another one. -/
def MadeAlike (memfsTable : MemfsTable) (t other : Tables) (call : TableRound) : Prop :=
  (tableRound memfsTable call t).1 = (tableRound memfsTable call other).1 ∧
    ∀ part ∈ call.writes, (tableRound memfsTable call t).2.part part = (tableRound memfsTable call other).2.part part

/-- An opening and a closing, by all that there is under their number. -/
theorem replaced_alike (call : FileCall) (same : t.part .descriptors = other.part .descriptors)
    (whole : t.fdTable[vfd]? = other.fdTable[vfd]?) :
    (fileStep memfsTable (vfd, call) t.fdTable).1 = (fileStep memfsTable (vfd, call) other.fdTable).1 ∧
      ∀ part ∈ ({.descriptors, .position vfd, .lock vfd} : Set TablePart),
        Tables.part part ⟨(fileStep memfsTable (vfd, call) t.fdTable).2, t.dsTable⟩ =
          Tables.part part ⟨(fileStep memfsTable (vfd, call) other.fdTable).2, other.dsTable⟩ := by
  obtain ⟨answer, here, others⟩ := @fileStep_eq memfsTable t.fdTable vfd call
  obtain ⟨answer', here', others'⟩ := @fileStep_eq memfsTable other.fdTable vfd call
  rw [whole, ← answer'] at answer
  rw [whole, ← here'] at here
  refine ⟨answer, fun part written => ?_⟩
  rcases written with rfl | rfl | rfl
  · funext number
    simp only [Tables.part]
    by_cases own : number = vfd
    · rw [own, here]
    · rw [others number own, others' number own]
      exact congrFun same number
  · simp only [Tables.part, here]
  · simp only [Tables.part, here]

theorem file_depends (vfd : Int) (call : FileCall)
    (alike : ∀ part ∈ (TableRound.start (.file vfd call)).uses, t.part part = other.part part) :
    MadeAlike memfsTable t other (.start (.file vfd call)) := by
  have same : t.part .descriptors = other.part .descriptors := alike _ (.inl rfl)
  cases call with
  | openAs st =>
      have whole := looked_up_whole same (alike _ (.inr (.inr (.inl rfl)))) (alike _ (.inr (.inr (.inr rfl))))
      obtain ⟨answer, parts⟩ := @replaced_alike memfsTable t other vfd (.openAs st) same whole
      exact ⟨congrArg (fun answer => Step.halt (TableAnswer.file answer)) answer, parts⟩
  | close =>
      have whole := looked_up_whole same (alike _ (.inr (.inr (.inl rfl)))) (alike _ (.inr (.inr (.inr rfl))))
      obtain ⟨answer, parts⟩ := @replaced_alike memfsTable t other vfd .close same whole
      exact ⟨congrArg (fun answer => Step.halt (TableAnswer.file answer)) answer, parts⟩
  | read nbyte =>
      have position : t.part (.position vfd) = other.part (.position vfd) := alike _ (.inr rfl)
      rcases looked_up_at same position with ⟨missing, absent⟩ | ⟨fd, lock, held, there⟩
      · simp only [MadeAlike, tableRound, missing, absent, true_and]
        exact fun part written => alike part (.inr written)
      · simp only [MadeAlike, tableRound, held, there]
        split
        · exact ⟨rfl, fun part written => alike part (.inr written)⟩
        · exact ⟨rfl, fun part written => alike part (.inr written)⟩
  | readv iov =>
      rcases looked_up same vfd with ⟨missing, absent⟩ | ⟨fd, pos, lock, held, there⟩
      · simp only [MadeAlike, tableRound, missing, absent, true_and]
        exact fun part written => alike part (.inr written)
      · simp only [MadeAlike, tableRound, held, there, true_and]
        exact fun part written => alike part (.inr written)
  | lseek offset whence =>
      have position : t.part (.position vfd) = other.part (.position vfd) := alike _ (.inr rfl)
      rcases looked_up_at same position with ⟨missing, absent⟩ | ⟨fd, lock, held, there⟩
      · simp only [MadeAlike, tableRound, tableCallStep, fileStep, FdTable.lseek, missing, absent, true_and]
        exact fun part written => alike part (.inr written)
      · simp only [MadeAlike, tableRound, tableCallStep, fileStep, FdTable.lseek, held, there, seek_lock, true_and]
        intro part written
        cases written
        simp only [Tables.part, Std.ExtTreeMap.getElem?_insert_self, Option.map_some]
  | flock operation =>
      rcases looked_up same vfd with ⟨missing, absent⟩ | ⟨fd, pos, lock, held, there⟩
      · simp only [MadeAlike, tableRound, tableCallStep, fileStep, FdTable.flock, missing, absent, true_and]
        exact fun part written => alike part (.inr written)
      · simp only [MadeAlike, tableRound, tableCallStep, fileStep, FdTable.flock, held, there, true_and]
        intro part written
        cases written
        simp only [Tables.part, Std.ExtTreeMap.getElem?_insert_self, Option.map_some]
  | pread nbyte offset =>
      refine ⟨?_, fun part written => absurd written (Set.notMem_empty part)⟩
      rcases looked_up same vfd with ⟨missing, absent⟩ | ⟨fd, pos, lock, held, there⟩
      · simp only [tableRound, tableCallStep, fileStep, FdTable.pread, missing, absent]
      · simp only [tableRound, tableCallStep, fileStep, FdTable.pread, held, there]
  | fstat =>
      refine ⟨?_, fun part written => absurd written (Set.notMem_empty part)⟩
      rcases looked_up same vfd with ⟨missing, absent⟩ | ⟨fd, pos, lock, held, there⟩
      · simp only [tableRound, tableCallStep, fileStep, FdTable.fstat, missing, absent]
      · simp only [tableRound, tableCallStep, fileStep, FdTable.fstat, held, there, Option.map_some]

theorem closedir_depends (alike : ∀ part ∈ (TableRound.start (.closedir dirp)).uses, t.part part = other.part part) :
    MadeAlike memfsTable t other (.start (.closedir dirp)) := by
  have all : ∀ part, (∀ number, part = .stream number → number = dirp) → t.part part = other.part part :=
    fun part own => alike part (.inr own)
  have files : t.fdTable = other.fdTable := Std.ExtTreeMap.ext_getElem? fun {vfd} =>
    looked_up_whole (all .descriptors fun _ here => by cases here)
      (all (.position vfd) fun _ here => by cases here) (all (.lock vfd) fun _ here => by cases here)
  have stream : t.dsTable[dirp]? = other.dsTable[dirp]? :=
    all (.stream dirp) fun number here => (TablePart.stream.inj here).symm
  cases held : other.dsTable[dirp]? with
  | none =>
      simp only [MadeAlike, tableRound, tableCallStep, DsTable.closedir, files, stream, held, true_and]
      exact fun part written => Tables.part_sameFds stream written
  | some ds =>
      simp only [MadeAlike, tableRound, tableCallStep, DsTable.closedir, files, stream, held, true_and]
      intro part written
      apply Tables.part_sameFds _ written
      rw [Std.ExtTreeMap.getElem?_erase_self, Std.ExtTreeMap.getElem?_erase_self]

theorem readdir_depends (alike : ∀ part ∈ (TableRound.start (.readdir dirp)).uses, t.part part = other.part part) :
    MadeAlike memfsTable t other (.start (.readdir dirp)) := by
  have same : t.part .descriptors = other.part .descriptors := alike _ (.inl rfl)
  have stream : t.dsTable[dirp]? = other.dsTable[dirp]? := alike (.stream dirp) (.inr rfl)
  have stored : ∀ ds, ∀ part ∈ ({.stream dirp} : Set TablePart),
      (t.setDs dirp ds).part part = (other.setDs dirp ds).part part := by
    intro ds part written
    cases written
    exact Tables.part_setDs_stream.trans Tables.part_setDs_stream.symm
  have untouched : ∀ part ∈ ({.stream dirp} : Set TablePart), t.part part = other.part part :=
    fun part written => alike part (.inr written)
  cases held : other.dsTable[dirp]? with
  | none =>
      simp only [MadeAlike, tableRound, stream, held, true_and]
      exact untouched
  | some ds =>
      simp only [MadeAlike, tableRound, stream, held, loadCache_alike same]
      split
      · exact ⟨rfl, untouched⟩
      · split
        · exact ⟨rfl, untouched⟩
        · split
          · split
            · exact ⟨rfl, stored _⟩
            · exact ⟨rfl, stored _⟩
          · exact ⟨rfl, untouched⟩

theorem readv_depends {iov : List Nat} {result : CallResult}
    (alike : ∀ part ∈ (TableRound.readv vfd iov result).uses, t.part part = other.part part) :
    MadeAlike memfsTable t other (.readv vfd iov result) := by
  have position : t.part (.position vfd) = other.part (.position vfd) := alike _ (.inr rfl)
  have untouched : ∀ part ∈ ({.position vfd} : Set TablePart), t.part part = other.part part :=
    fun part written => alike part (.inr written)
  cases iov with
  | nil => exact ⟨rfl, untouched⟩
  | cons len rest =>
      rcases looked_up_at (alike .descriptors (.inl rfl)) position with
        ⟨missing, absent⟩ | ⟨fd, lock, held, there⟩
      · simp only [MadeAlike, tableRound, missing, absent, true_and]
        exact untouched
      · simp only [MadeAlike, tableRound, held, there]
        split
        · exact ⟨rfl, untouched⟩
        · split
          · exact ⟨rfl, untouched⟩
          · exact ⟨rfl, untouched⟩

theorem scattered_depends {rest : List Nat} {result next : CallResult}
    (alike : ∀ part ∈ (TableRound.scattered vfd rest result next).uses, t.part part = other.part part) :
    MadeAlike memfsTable t other (.scattered vfd rest result next) := by
  have position : t.part (.position vfd) = other.part (.position vfd) := alike _ (.inr rfl)
  have untouched : ∀ part ∈ ({.position vfd} : Set TablePart), t.part part = other.part part :=
    fun part written => alike part (.inr written)
  rcases looked_up_at (alike .descriptors (.inl rfl)) position with ⟨missing, absent⟩ | ⟨fd, lock, held, there⟩
  · simp only [MadeAlike, tableRound, missing, absent, true_and]
    exact untouched
  · simp only [MadeAlike, tableRound, held, there]
    split
    · exact ⟨rfl, untouched⟩
    · split
      · exact ⟨rfl, untouched⟩
      · refine ⟨rfl, fun part written => ?_⟩
        cases written
        simp only [Tables.part_setFd_position]

/-- What a round makes of the state depends on what it uses only. -/
theorem tableRound_depends (call : TableRound) (alike : ∀ part ∈ call.uses, t.part part = other.part part) :
    MadeAlike memfsTable t other call := by
  cases call with
  | start call =>
      cases call with
      | file vfd call => exact file_depends vfd call alike
      | opendir vfd into =>
          have same : t.part .descriptors = other.part .descriptors := alike _ (.inl rfl)
          simp only [MadeAlike, tableRound, loadCache_alike same]
          split
          · exact ⟨rfl, fun part written => alike part (.inr written)⟩
          · exact ⟨rfl, fun part written => alike part (.inr written)⟩
      | closedir dirp => exact closedir_depends alike
      | telldir dirp =>
          have stream : t.dsTable[dirp]? = other.dsTable[dirp]? := alike (.stream dirp) (.inl rfl)
          refine ⟨?_, fun part written => absurd written (Set.notMem_empty part)⟩
          simp only [tableRound, tableCallStep, DsTable.telldir, stream]
      | dirfd dirp =>
          have stream : t.dsTable[dirp]? = other.dsTable[dirp]? := alike (.stream dirp) (.inl rfl)
          refine ⟨?_, fun part written => absurd written (Set.notMem_empty part)⟩
          simp only [tableRound, tableCallStep, DsTable.dirfd, stream]
      | seekdir dirp pos =>
          have stream : t.dsTable[dirp]? = other.dsTable[dirp]? := alike (.stream dirp) (.inr rfl)
          cases held : other.dsTable[dirp]? with
          | none =>
              simp only [MadeAlike, tableRound, tableCallStep, DsTable.seekdir, stream, held, true_and]
              exact fun part written => alike part (.inr written)
          | some ds =>
              simp only [MadeAlike, tableRound, tableCallStep, DsTable.seekdir, stream, held, true_and]
              intro part written
              cases written
              exact Tables.part_setDs_stream.trans Tables.part_setDs_stream.symm
      | readdir dirp => exact readdir_depends alike
  | read vfd result =>
      have position : t.part (.position vfd) = other.part (.position vfd) := alike _ (.inr rfl)
      rcases looked_up_at (alike .descriptors (.inl rfl)) position with ⟨missing, absent⟩ | ⟨fd, lock, held, there⟩
      · simp only [MadeAlike, tableRound, missing, absent, true_and]
        exact fun part written => alike part (.inr written)
      · simp only [MadeAlike, tableRound, held, there, true_and]
        intro part written
        cases written
        simp only [Tables.part_setFd_position]
  | readv vfd iov result => exact readv_depends alike
  | scattered vfd rest result next => exact scattered_depends alike
  | opendir address ds =>
      refine ⟨rfl, fun part written => ?_⟩
      cases written
      exact Tables.part_setDs_stream.trans Tables.part_setDs_stream.symm
  | readdir dirp =>
      have stream : t.dsTable[dirp]? = other.dsTable[dirp]? := alike (.stream dirp) (.inr rfl)
      cases held : other.dsTable[dirp]? with
      | none =>
          simp only [MadeAlike, tableRound, stream, held, true_and]
          exact fun part written => alike part (.inr written)
      | some ds =>
          simp only [MadeAlike, tableRound, stream, held, true_and]
          intro part written
          cases written
          exact Tables.part_setDs_stream.trans Tables.part_setDs_stream.symm

theorem tableRounds_footprints :
    (tableRounds memfsTable).Footprints Tables.part TableRound.uses TableRound.writes where
  ext := Tables.ext_part
  subset _ := Set.subset_union_right
  goesOn goes := (tableRound_goesOn memfsTable goes).fewer
  keeps elsewhere := tableRound_keeps _ elsewhere
  depends alike := tableRound_depends _ alike

theorem atOnce_eq : Rounds.atOnce (tableRounds memfsTable) TableRound.start = tableCallStep memfsTable := by
  funext call t
  exact whole_start call t

end Footprint

/-- Reading, listing, opening and closing at the same time: every call returns what
its method returns if each call is made in one step when it begins, and the
tables are left as these steps leave them. -/
theorem overlapping_calls_at_once {memfsTable : MemfsTable} {start : Tables}
    {s : Rounds.Overlapping Tables TableRound TableAnswer TableCall}
    (reached : Machine.Reaches (Rounds.overlap (tableRounds memfsTable) TableRound.start)
      (Rounds.Overlapping.Allowed TableRound.start TableRound.Apart) (.fresh start) s) :
    (∀ place answer, (place, answer) ∈ s.returned →
        (Machine.answers (tableCallStep memfsTable) s.begun start)[place]? = some answer) ∧
      (s.calls = [] → s.state = Machine.after (tableCallStep memfsTable) s.begun start) := by
  have swaps : (tableRounds memfsTable).Swaps TableRound.Apart := tableRounds_footprints.swaps
  rw [← atOnce_eq]
  exact ⟨fun place answer returned => swaps.answered reached returned, swaps.quiet reached⟩

/-- One file that is open twice. -/
def openTwice (bytes : List UInt8) : Tables where
  fdTable := Std.ExtTreeMap.insert (Std.ExtTreeMap.insert ∅ 1 (filledFd bytes)) 2 (filledFd bytes)
  dsTable := ∅

/-- Two readers of it, and a `pread` that comes between. -/
def crossedReads : List (Rounds.Turn TableCall) :=
  [.begin (.file 1 (.read 2)), .begin (.file 2 (.readv [1, 2])), .begin (.file 1 (.pread 1 0)),
    .goOn 1, .goOn 0, .goOn 0, .goOn 0, .goOn 0, .goOn 0]

def runCrossed (turns : List (Rounds.Turn TableCall)) : Rounds.Overlapping Tables TableRound TableAnswer TableCall :=
  Machine.after (Rounds.overlap (tableRounds (filledTable [7, 8, 9])) TableRound.start) turns
    (.fresh (openTwice [7, 8, 9]))

theorem crossed_reached : Machine.Reaches (Rounds.overlap (tableRounds (filledTable [7, 8, 9])) TableRound.start)
    (Rounds.Overlapping.Allowed TableRound.start TableRound.Apart) (.fresh (openTwice [7, 8, 9]))
    (runCrossed crossedReads) := by
  have separate : (crossedReads.filterMap Rounds.Turn.op).Pairwise fun call other =>
      TableRound.Apart (.start call) (.start other) := by
    have calls : crossedReads.filterMap Rounds.Turn.op =
        [.file 1 (.read 2), .file 2 (.readv [1, 2]), .file 1 (.pread 1 0)] := rfl
    simp only [calls, List.pairwise_cons, List.mem_cons, List.not_mem_nil, or_false, forall_eq_or_imp, forall_eq,
      IsEmpty.forall_iff, implies_true, List.Pairwise.nil, and_true]
    simp [TableRound.Apart, Rounds.Apart, TableRound.uses, TableRound.reads, TableRound.writes, FileCall.writes]
  have swaps : (tableRounds (filledTable [7, 8, 9])).Swaps TableRound.Apart := tableRounds_footprints.swaps
  exact Machine.Reaches.start.after (swaps.allows separate (by simp [Rounds.Overlapping.fresh]))

theorem crossed_reads_at_once :
    (∀ place answer, (place, answer) ∈ (runCrossed crossedReads).returned →
        (Machine.answers (tableCallStep (filledTable [7, 8, 9])) (runCrossed crossedReads).begun
          (openTwice [7, 8, 9]))[place]? = some answer) ∧
      (runCrossed crossedReads).state =
        Machine.after (tableCallStep (filledTable [7, 8, 9])) (runCrossed crossedReads).begun
          (openTwice [7, 8, 9]) := by
  obtain ⟨answered, quiet⟩ := overlapping_calls_at_once crossed_reached
  have none : (runCrossed crossedReads).calls.length = 0 := by decide +kernel
  exact ⟨answered, quiet (List.length_eq_zero_iff.mp none)⟩

def TableAnswer.bytes : TableAnswer → List UInt8
  | .file (.call result) => result.stored
  | _ => []

theorem crossed_returned : (runCrossed crossedReads).returned.map (fun returned => (returned.1, returned.2.bytes)) =
    [(1, [7, 8, 9]), (0, [7, 8]), (2, [7])] := by
  decide +kernel

/-- Two reads of one descriptor that are not apart. -/
example : (runCrossed [.begin (.file 1 (.read 1)), .begin (.file 1 (.read 1)), .goOn 0, .goOn 0,
      .begin (.file 1 (.read 1)), .goOn 0]).returned.map (fun returned => returned.2.bytes) = [[9], [7], [7]] := by
  decide +kernel

end Tebako
