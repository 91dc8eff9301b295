import Tebako.OpenMemory

namespace Tebako

open Data Data.Machine Data.OrderedMap

/-! Threads that open and close files of a memfs at the same time.

A number is taken and entered in the table in two steps, only the second of
which is made under the lock. Closing is one step under the lock, the call of
the host included. -/

/-- What a lookup comes to: a file that needs a number, or an answer at once. -/
def resolved (found : Except Errno Lookup) (flags : UInt32) : Except OpenAnswer FileStat :=
  match found with
  | .ok (.inode st) =>
      if flags &&& oWrite ≠ 0 then .error (.failed .EROFS)
      else if st.isDir = false ∧ flags &&& oDirectory ≠ 0 then .error (.failed .ENOTDIR)
      else if st.isLnk = true ∧ flags &&& oNofollow ≠ 0 then .error (.failed .ELOOP)
      else .ok st
  | .ok (.linkOutside lnk _) => .error (.linkOutside lnk)
  | _ => .error (.failed (if flags &&& oWrite ≠ 0 then .EROFS else .ENOENT))

/-- The beginning of `open`, which does not look at the table. -/
def resolvedPath (w : World) (fuel : Nat) (path : CString) (flags : UInt32) :
    Option (Except OpenAnswer FileStat) :=
  (dwarfsStat w fuel path (flags &&& oNofollow = 0)).map fun found => resolved found flags

/-- The beginning of `openat`, which looks at the table once. -/
def FdTable.resolvedAt (table : FdTable) (w : World) (fuel : Nat) (vfd : Int) (path : CString)
    (flags : UInt32) : Option (Except OpenAnswer FileStat) :=
  match table.fstat vfd with
  | none => some (.error .invalidFd)
  | some stfd =>
      if stfd.isDir = false then some (.error (.failed .ENOTDIR))
      else
        let inode := stfd.ino.toUInt32
        match inodeMemfsCall w.memfsTable (fun memfs inode => memfs.inodeAccess inode xOk) inode with
        | .error _ => some (.error (.failed .EACCES))
        | .ok () =>
            (dwarfsInodeRelativeStat w fuel inode path (flags &&& oNofollow = 0)).map fun found =>
              resolved found flags

/-- Where the opening of a thread is: about to call `dup`, with what its new
handle happens to hold, or about to enter the number in the table. -/
inductive FdCall where
  | dup (st : FileStat) (handle : Int)
  | assign (st : FileStat) (vfd : Int)

/-- The threads that have an opening under way. `returned` is not known to the
library: the numbers that openings have returned, each with the file that the
opening found, as long as they have not been passed to `close`. -/
structure FdThreads where
  process : Process
  calls : Std.ExtTreeMap Nat FdCall
  returned : List (Int × FileStat)

/-- What happens next. A closing is a single step, whichever thread makes it. -/
inductive ThreadOp where
  | openFile (thread : Nat) (w : World) (fuel : Nat) (path : CString) (flags : UInt32) (handle : Int)
  | openAt (thread : Nat) (w : World) (fuel : Nat) (vfd : Int) (path : CString) (flags : UInt32)
      (handle : Int)
  | goOn (thread : Nat)
  | close (vfd : Int)

namespace FdThreads

variable (s : FdThreads)

def begin (thread : Nat) (handle : Int) :
    Option (Except OpenAnswer FileStat) → Option OpenAnswer × FdThreads
  | none => (none, s)
  | some (.error answer) => (some answer, s)
  | some (.ok st) => (none, { s with calls := s.calls.insert thread (.dup st handle) })

/-- The next step of an opening. -/
def goOn (thread : Nat) : Option OpenAnswer × FdThreads :=
  match s.calls[thread]? with
  | none => (none, s)
  | some (.dup st handle) =>
      let (ret, host) := s.process.host.dupStdin
      if ret = dwarfsIoError then
        let (_, _, after) := s.process.abandon handle
        (some .exhausted, { s with process := after, calls := s.calls.erase thread })
      else
        (none, { s with
          process := { s.process with host := host }
          calls := s.calls.insert thread (.assign st ret) })
  | some (.assign st ret) =>
      let (answer, _, after) := s.process.register st ret true
      (some answer, ⟨after, s.calls.erase thread, (ret, st) :: s.returned⟩)

end FdThreads

def threadStep : Machine FdThreads ThreadOp (Option OpenAnswer)
  | .openFile thread w fuel path flags handle, s => s.begin thread handle (resolvedPath w fuel path flags)
  | .openAt thread w fuel vfd path flags handle, s =>
      s.begin thread handle (s.process.fdTable.resolvedAt w fuel vfd path flags)
  | .goOn thread, s => s.goOn thread
  | .close vfd, s =>
      (none, { s with
        process := (s.process.closeFd vfd).2.2
        returned := s.returned.filter fun entry => entry.1 ≠ vfd })

/-- A thread makes one call after another, and `dup` succeeds. -/
def FdThreads.Allowed (s : FdThreads) : ThreadOp → Prop
  | .openFile thread _ _ _ _ _ => s.calls[thread]? = none
  | .openAt thread _ _ _ _ _ _ => s.calls[thread]? = none
  | .goOn thread =>
      ∀ st handle, s.calls[thread]? = some (.dup st handle) → s.process.host.dupStdin.1 ≠ dwarfsIoError
  | .close _ => True

/-! ## A thread that is not disturbed -/

section Alone

variable {p : Process} {s : FdThreads} {w : World} {fuel thread : Nat} {vfd handle : Int} {path : CString}
variable {flags : UInt32} {found : Except Errno Lookup} {memory : OpenMemory}

/-- What an opening goes on with. -/
def Process.openResolved (p : Process) (memory : OpenMemory) : Except OpenAnswer FileStat → Traced OpenAnswer
  | .error answer => (answer, [], p)
  | .ok st => p.acquire st memory

theorem openFoundIn_resolved : p.openFoundIn found flags memory = p.openResolved memory (resolved found flags) := by
  unfold Process.openFoundIn resolved
  rcases found with errno | (st | ⟨lnk, st⟩ | ⟨lnk, st⟩ | ⟨lnk, st⟩)
  · rfl
  · simp only
    split
    · rfl
    · split
      · rfl
      · split <;> rfl
  · rfl
  · rfl
  · rfl

theorem openIn_resolved (room : memory.descriptor = true) :
    p.openIn w fuel path flags memory = (resolvedPath w fuel path flags).map (p.openResolved memory) := by
  simp only [Process.openIn, room, ↓reduceIte, resolvedPath, Option.map_map, openFoundIn_resolved]
  rfl

theorem openatIn_resolved (room : memory.descriptor = true) :
    p.openatIn w fuel vfd path flags memory =
      (p.fdTable.resolvedAt w fuel vfd path flags).map (p.openResolved memory) := by
  unfold Process.openatIn FdTable.resolvedAt
  cases held : p.fdTable.fstat vfd with
  | none => rfl
  | some stfd =>
      simp only
      split
      · rfl
      · cases access : inodeMemfsCall w.memfsTable (fun memfs inode => memfs.inodeAccess inode xOk)
          stfd.ino.toUInt32 with
        | error errno => rfl
        | ok _ =>
            change Option.map _ _ = Option.map _ (Option.map _ _)
            rw [Option.map_map]
            exact congrArg (Option.map · _) (funext fun found => openFoundIn_resolved)

/-- What its two further steps make of an opening that has begun. -/
theorem goOn_twice {looked : Option (Except OpenAnswer FileStat)} {result : Traced OpenAnswer}
    (idle : s.calls[thread]? = none)
    (looks : looked.map (s.process.openResolved ⟨true, some handle, true⟩) = some result) :
    ((s.begin thread handle looked).2.goOn thread).2.goOn thread |>.2.process = result.2.2 := by
  obtain ⟨answer, rfl, rfl⟩ := Option.map_eq_some_iff.mp looks
  cases answer with
  | error answer =>
      have first : s.goOn thread = (none, s) := by simp only [FdThreads.goOn, idle]
      simp only [FdThreads.begin, first, Process.openResolved]
  | ok st =>
      by_cases failed : s.process.host.dupStdin.1 = dwarfsIoError
      · have same := Process.dupStdin_failed failed
        simp only [FdThreads.begin, FdThreads.goOn, Std.ExtTreeMap.getElem?_insert_self, same, ↓reduceIte,
          Std.ExtTreeMap.getElem?_erase_self, Process.openResolved, Process.acquire, Process.abandon]
      · simp only [FdThreads.begin, FdThreads.goOn, Std.ExtTreeMap.getElem?_insert_self, failed, ↓reduceIte,
          Process.openResolved, Process.acquire]

theorem openFile_alone {result : Traced OpenAnswer} (idle : s.calls[thread]? = none)
    (opened : s.process.openIn w fuel path flags ⟨true, some handle, true⟩ = some result) :
    (after threadStep [.openFile thread w fuel path flags handle, .goOn thread, .goOn thread] s).process =
      result.2.2 := by
  rw [openIn_resolved rfl] at opened
  exact goOn_twice idle opened

theorem openAt_alone {result : Traced OpenAnswer} (idle : s.calls[thread]? = none)
    (opened : s.process.openatIn w fuel vfd path flags ⟨true, some handle, true⟩ = some result) :
    (after threadStep [.openAt thread w fuel vfd path flags handle, .goOn thread, .goOn thread] s).process =
      result.2.2 := by
  rw [openatIn_resolved rfl] at opened
  exact goOn_twice idle opened

end Alone

/-! ## All threads together -/

def HostFds.Placeholder (host : HostFds) (fd : Int) : Prop :=
  ∃ isDir, host.files[fd]? = some ⟨isDir, .placeholder⟩

namespace FdThreads

/-- The number has been taken for an opening that has not entered it yet. -/
def Pending (s : FdThreads) (vfd : Int) : Prop :=
  ∃ (thread : Nat) (st : FileStat), s.calls[thread]? = some (.assign st vfd)

/-- No opening is under way, and the placeholders are those of the table. -/
structure Quiet (s : FdThreads) : Prop where
  calls : s.calls = ∅
  returned : s.returned = []
  handle : ∀ (vfd : Int) fd, s.process.fdTable[vfd]? = some fd → fd.handle = vfd
  placeholders : ∀ vfd, s.process.host.Placeholder vfd ↔ vfd ∈ s.process.fdTable

structure Consistent (s : FdThreads) : Prop where
  handle : ∀ (vfd : Int) fd, s.process.fdTable[vfd]? = some fd → fd.handle = vfd
  placeholders : ∀ vfd, s.process.host.Placeholder vfd ↔ vfd ∈ s.process.fdTable ∨ s.Pending vfd
  apart : ∀ vfd, s.Pending vfd → vfd ∉ s.process.fdTable
  single : ∀ (thread other : Nat) st st' vfd, s.calls[thread]? = some (.assign st vfd) →
    s.calls[other]? = some (.assign st' vfd) → thread = other
  returned : ∀ vfd st, (vfd, st) ∈ s.returned → ∃ fd, s.process.fdTable[vfd]? = some fd ∧ fd.st = st

variable {s : FdThreads} {thread : Nat} {vfd handle : Int} {st : FileStat} {call : FdCall}

theorem Quiet.consistent (quiet : s.Quiet) : s.Consistent := by
  have idle : ∀ vfd, ¬ s.Pending vfd := by
    intro vfd pending
    obtain ⟨thread, st, waiting⟩ := pending
    rw [quiet.calls] at waiting
    simp at waiting
  constructor
  · exact quiet.handle
  · intro vfd
    rw [quiet.placeholders vfd]
    exact ⟨.inl, fun held => held.resolve_right (idle vfd)⟩
  · exact fun vfd pending => absurd pending (idle vfd)
  · exact fun thread _ st _ vfd waiting => absurd ⟨thread, st, waiting⟩ (idle vfd)
  · intro vfd st member
    rw [quiet.returned] at member
    cases member

/-- Nothing changes as long as a thread has no number. -/
theorem Consistent.begin {looked : Option (Except OpenAnswer FileStat)} (consistent : s.Consistent)
    (idle : s.calls[thread]? = none) : (s.begin thread handle looked).2.Consistent := by
  rcases looked with _ | answer | st
  · exact consistent
  · exact consistent
  · have same : ∀ (other : Nat) st' vfd, (s.calls.insert thread (.dup st handle))[other]? =
        some (.assign st' vfd) ↔ s.calls[other]? = some (.assign st' vfd) := by
      intro other st' vfd
      rw [getElem?_insert_iff]
      by_cases here : other = thread
      · simp [here, idle]
      · simp [here]
    have pending : ∀ vfd, Pending { s with calls := s.calls.insert thread (.dup st handle) } vfd ↔
        s.Pending vfd := fun vfd => by simp only [Pending, same]
    constructor
    · exact consistent.handle
    · intro vfd
      rw [FdThreads.begin, pending]
      exact consistent.placeholders vfd
    · intro vfd waiting
      exact consistent.apart vfd ((pending vfd).mp waiting)
    · intro first second st st' vfd atFirst atSecond
      exact consistent.single first second st st' vfd ((same ..).mp atFirst) ((same ..).mp atSecond)
    · exact consistent.returned

theorem placeholder_insert {host : HostFds} {fd : Int} {isDir : Bool} :
    HostFds.Placeholder { host with files := host.files.insert fd ⟨isDir, .placeholder⟩ } vfd ↔
      vfd = fd ∨ host.Placeholder vfd := by
  unfold HostFds.Placeholder
  by_cases same : vfd = fd
  · simp [same]
  · simp [Std.ExtTreeMap.getElem?_insert, same, Ne.symm same]

theorem placeholder_erase {host : HostFds} {fd : Int} :
    (host.close fd).Placeholder vfd ↔ vfd ≠ fd ∧ host.Placeholder vfd := by
  unfold HostFds.Placeholder HostFds.close
  by_cases same : vfd = fd
  · simp [same]
  · simp [Std.ExtTreeMap.getElem?_erase, same, Ne.symm same]

/-- A number that has been taken is pending, like those that were before. -/
theorem waiting_taken {fd : Int} {other : Nat} {st' : FileStat} (begun : s.calls[thread]? = some (.dup st handle)) :
    (s.calls.insert thread (.assign st fd))[other]? = some (.assign st' vfd) ↔
      (other = thread ∧ st = st' ∧ fd = vfd) ∨ s.calls[other]? = some (.assign st' vfd) := by
  rw [getElem?_insert_iff]
  by_cases same : other = thread
  · simp [same, begun]
  · simp [same]

theorem pending_taken {fd : Int} {after : Process} (begun : s.calls[thread]? = some (.dup st handle)) :
    Pending ⟨after, s.calls.insert thread (.assign st fd), s.returned⟩ vfd ↔ vfd = fd ∨ s.Pending vfd := by
  simp only [Pending, waiting_taken begun]
  constructor
  · intro pending
    obtain ⟨other, st', ⟨_, _, rfl⟩ | before⟩ := pending
    · exact .inl rfl
    · exact .inr ⟨other, st', before⟩
  · intro pending
    rcases pending with rfl | ⟨other, st', before⟩
    · exact ⟨thread, st, .inl ⟨rfl, rfl, rfl⟩⟩
    · exact ⟨other, st', .inr before⟩

/-- A number that has been entered in the table is pending no longer. -/
theorem Consistent.pending_assigned {after : Process} {returned : List (Int × FileStat)} {number : Int}
    (consistent : s.Consistent) (waiting : s.calls[thread]? = some (.assign st vfd)) :
    Pending ⟨after, s.calls.erase thread, returned⟩ number ↔ number ≠ vfd ∧ s.Pending number := by
  simp only [Pending, getElem?_erase_iff]
  constructor
  · intro pending
    obtain ⟨other, st', different, before⟩ := pending
    refine ⟨fun same => ?_, other, st', before⟩
    subst same
    exact different (consistent.single other thread st' st number before waiting)
  · intro pending
    obtain ⟨different, other, st', before⟩ := pending
    refine ⟨other, st', fun same => ?_, before⟩
    subst same
    cases waiting.symm.trans before
    exact different rfl

/-- `dup` gives a number that was not open, so that no other opening has it and
it is not in the table. -/
theorem Consistent.taken {fd : Int} {isDir : Bool} (consistent : s.Consistent)
    (unused : fd ∉ s.process.host.files) (begun : s.calls[thread]? = some (.dup st handle)) :
    Consistent { s with
      process := { s.process with
        host := { s.process.host with files := s.process.host.files.insert fd ⟨isDir, .placeholder⟩ } }
      calls := s.calls.insert thread (.assign st fd) } := by
  have free : ¬ s.process.host.Placeholder fd := by
    intro taken
    obtain ⟨_, there⟩ := taken
    exact unused (mem_of_getElem? there)
  rw [consistent.placeholders fd, not_or] at free
  obtain ⟨absent, untaken⟩ := free
  constructor
  · exact consistent.handle
  · intro vfd
    rw [placeholder_insert, consistent.placeholders vfd, pending_taken begun]
    exact or_left_comm
  · intro vfd pending
    rcases (pending_taken begun).mp pending with rfl | before
    · exact absent
    · exact consistent.apart vfd before
  · intro first second st' st'' vfd atFirst atSecond
    rcases (waiting_taken begun).mp atFirst with ⟨rfl, _, rfl⟩ | before
    · rcases (waiting_taken begun).mp atSecond with ⟨same, _⟩ | before
      · exact same.symm
      · exact absurd ⟨second, st'', before⟩ untaken
    · rcases (waiting_taken begun).mp atSecond with ⟨_, _, rfl⟩ | before'
      · exact absurd ⟨first, st', before⟩ untaken
      · exact consistent.single first second st' st'' vfd before before'
  · exact consistent.returned

/-- A pending number is not in the table, so that its assignment destroys nothing. -/
theorem Consistent.assigned (consistent : s.Consistent) (waiting : s.calls[thread]? = some (.assign st vfd)) :
    Consistent ⟨{ s.process with fdTable := Std.ExtTreeMap.insert s.process.fdTable vfd ⟨st, 0, 0, vfd⟩ },
      s.calls.erase thread, (vfd, st) :: s.returned⟩ := by
  have taken : s.Pending vfd := ⟨thread, st, waiting⟩
  have absent := consistent.apart vfd taken
  constructor
  · intro other fd held
    rcases getElem?_insert_iff.mp held with ⟨same, own⟩ | ⟨_, before⟩
    · cases own
      exact same.symm
    · exact consistent.handle other fd before
  · intro number
    rw [consistent.placeholders number, mem_insert_iff, consistent.pending_assigned waiting]
    by_cases same : number = vfd
    · subst same
      simp [taken]
    · simp [same]
  · intro number pending member
    obtain ⟨different, before⟩ := (consistent.pending_assigned waiting).mp pending
    exact consistent.apart number before ((mem_insert_iff.mp member).resolve_left different)
  · intro first second st' st'' number atFirst atSecond
    exact consistent.single first second st' st'' number (getElem?_erase_iff.mp atFirst).2
      (getElem?_erase_iff.mp atSecond).2
  · intro number st' member
    rcases List.mem_cons.mp member with same | before
    · cases same
      exact ⟨_, Std.ExtTreeMap.getElem?_insert_self, rfl⟩
    · obtain ⟨fd, held, same⟩ := consistent.returned number st' before
      have different := ne_of_mem_of_not_mem (mem_of_getElem? held) absent
      exact ⟨fd, getElem?_insert_iff.mpr (.inr ⟨different, held⟩), same⟩

/-- The descriptor that is destroyed closes its own number, which nobody waits for. -/
theorem Consistent.closed (consistent : s.Consistent) :
    Consistent { s with
      process := (s.process.closeFd vfd).2.2
      returned := s.returned.filter fun entry => entry.1 ≠ vfd } := by
  rcases @Process.closeFd_cases s.process vfd with ⟨missing, result⟩ | ⟨fd, held, result⟩
  · rw [result]
    refine ⟨consistent.handle, consistent.placeholders, consistent.apart, consistent.single, ?_⟩
    exact fun number st member => consistent.returned number st (List.mem_filter.mp member).1
  · obtain rfl := consistent.handle vfd fd held
    have present := mem_of_getElem? held
    rw [result]
    constructor
    · intro number other found
      exact consistent.handle number other (getElem?_erase_iff.mp found).2
    · intro number
      simp only
      rw [placeholder_erase, consistent.placeholders number, mem_erase_iff]
      have waits : s.Pending number → number ≠ fd.handle := by
        intro pending same
        subst same
        exact consistent.apart _ pending present
      constructor
      · intro apart
        obtain ⟨different, there | pending⟩ := apart
        · exact .inl ⟨different, there⟩
        · exact .inr pending
      · intro apart
        rcases apart with ⟨different, there⟩ | pending
        · exact ⟨different, .inl there⟩
        · exact ⟨waits pending, .inr pending⟩
    · intro number pending member
      exact consistent.apart number pending (mem_erase_iff.mp member).2
    · exact consistent.single
    · intro number st member
      obtain ⟨before, different⟩ := List.mem_filter.mp member
      simp only [ne_eq, decide_not, Bool.not_eq_eq_eq_not, Bool.not_true, decide_eq_false_iff_not] at different
      obtain ⟨entry, found, same⟩ := consistent.returned number st before
      exact ⟨entry, getElem?_erase_iff.mpr ⟨different, found⟩, same⟩

theorem Consistent.goOn (consistent : s.Consistent) (allowed : s.Allowed (.goOn thread)) :
    (s.goOn thread).2.Consistent := by
  cases at' : s.calls[thread]? with
  | none => simpa only [FdThreads.goOn, at'] using consistent
  | some call =>
      cases call with
      | dup st handle =>
          obtain ⟨fd, host, taken, unused, same, isDir, rfl⟩ :=
            Process.dupStdin_taken (allowed st handle at')
          have number : ¬ fd = dwarfsIoError := by
            rw [dwarfsIoError]
            omega
          simpa only [FdThreads.goOn, at', same, number, ↓reduceIte] using consistent.taken unused at'
      | assign st vfd =>
          have absent := Std.ExtTreeMap.getElem?_eq_none (consistent.apart vfd ⟨thread, st, at'⟩)
          simpa only [FdThreads.goOn, at', Process.register, absent, ↓reduceIte] using consistent.assigned at'

theorem Consistent.step {op : ThreadOp} (consistent : s.Consistent) (allowed : s.Allowed op) :
    (threadStep op s).2.Consistent := by
  cases op with
  | openFile thread w fuel path flags handle => exact consistent.begin allowed
  | openAt thread w fuel vfd path flags handle => exact consistent.begin allowed
  | goOn thread => exact consistent.goOn allowed
  | close vfd => exact consistent.closed

end FdThreads

/-- From a start at which nothing is under way, in whatever order the steps of
the threads come: a number that an opening has returned holds the file that was
found, no assignment finds its number in the table, and the placeholders of the
host are the numbers of the table and those about to be entered. -/
theorem registrations_survive (start s : FdThreads) (quiet : start.Quiet)
    (reached : Reaches threadStep FdThreads.Allowed start s) :
    (∀ vfd st, (vfd, st) ∈ s.returned → ∃ fd, s.process.fdTable[vfd]? = some fd ∧ fd.st = st) ∧
    (∀ (thread : Nat) st vfd, s.calls[thread]? = some (.assign st vfd) → vfd ∉ s.process.fdTable) ∧
    (∀ vfd, s.process.host.Placeholder vfd ↔ vfd ∈ s.process.fdTable ∨ s.Pending vfd) := by
  have consistent : s.Consistent :=
    reached.invariant quiet.consistent fun state op consistent allowed => consistent.step allowed
  exact ⟨consistent.returned, fun thread st vfd waiting => consistent.apart vfd ⟨thread, st, waiting⟩,
    consistent.placeholders⟩

def idleThreads : FdThreads := ⟨freshProcess, ∅, []⟩

theorem idleThreads_quiet : idleThreads.Quiet where
  calls := rfl
  returned := rfl
  handle vfd fd held := by simp [idleThreads, freshProcess] at held
  placeholders vfd := by
    simp only [idleThreads, freshProcess, HostFds.Placeholder, Std.ExtTreeMap.getElem?_insert]
    simp

def openBy (thread : Nat) : ThreadOp := .openFile thread oneFileWorld 9 (belowMountPoint ['f']) 0 7

theorem openBy_allowed {s : FdThreads} {thread : Nat} (idle : s.calls[thread]? = none) :
    s.Allowed (openBy thread) := idle

/-- The thread that takes the first number enters it last, and the other number
is closed in between. -/
def crossedOpenings : List ThreadOp :=
  [openBy 0, openBy 1, .goOn 0, .goOn 1, .goOn 1, .close 2, .goOn 0]

theorem crossed_openings_registered :
    (after threadStep crossedOpenings idleThreads).returned.map Prod.fst = [1] ∧
    ∀ vfd, (after threadStep crossedOpenings idleThreads).process.host.Placeholder vfd ↔
      vfd ∈ (after threadStep crossedOpenings idleThreads).process.fdTable ∨
        (after threadStep crossedOpenings idleThreads).Pending vfd := by
  have allowed : Allows threadStep FdThreads.Allowed crossedOpenings idleThreads :=
    ⟨openBy_allowed (by decide +kernel), openBy_allowed (by decide +kernel), fun _ _ _ => by decide +kernel,
      fun _ _ _ => by decide +kernel, fun _ _ _ => by decide +kernel, trivial, fun _ _ _ => by decide +kernel, trivial⟩
  exact ⟨by decide +kernel,
    (registrations_survive idleThreads _ idleThreads_quiet (Reaches.start.after allowed)).2.2⟩

end Tebako
