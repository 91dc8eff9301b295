import Tebako.Ownership

namespace Tebako

open Data.OrderedMap

/-! Opening a file where there is not always memory for it.

A descriptor owns its handle, and closes the number that it finds there when it
is destroyed. What a new handle holds before it is given a number is arbitrary. -/

/-- What the allocations of an opening come to: whether there is room for the
descriptor and for a node of the table, and what the new handle happens to hold. -/
structure OpenMemory where
  descriptor : Bool
  handle : Option Int
  node : Bool

def OpenAnswer.ret : OpenAnswer → Int
  | .opened vfd => vfd
  | .linkOutside _ => dwarfsSLinkOutside
  | .failed _ => dwarfsIoError
  | .exhausted => dwarfsIoError
  | .invalidFd => dwarfsInvalidFd

namespace Process

variable (p : Process)

/-- The handler of `bad_alloc`. `ret` is what `dup` has returned, if it has been
called, and `calls` are those made on the way to the handler. -/
def outOfMemory (ret : Int) (calls : List HostCall) : Traced OpenAnswer :=
  if 0 < ret then (.failed .ENOMEM, calls ++ [.close ret], { p with host := p.host.close ret })
  else (.failed .ENOMEM, calls, p)

/-- The assignment to the table. A descriptor for which there is no node is
destroyed on the way to the handler, and one that is there already by the assignment. -/
def register (st : FileStat) (ret : Int) (node : Bool) : Traced OpenAnswer :=
  match p.fdTable[ret]? with
  | some old => (.opened ret, [.close old.handle], { p with
      fdTable := Std.ExtTreeMap.insert p.fdTable ret ⟨st, 0, 0, ret⟩, host := p.host.close old.handle })
  | none =>
      if node then
        (.opened ret, [], { p with fdTable := Std.ExtTreeMap.insert p.fdTable ret ⟨st, 0, 0, ret⟩ })
      else { p with host := p.host.close ret }.outOfMemory ret [.close ret]

/-- A new handle, a number for it, and the place in the table. -/
def acquire (st : FileStat) (memory : OpenMemory) : Traced OpenAnswer :=
  match memory.handle with
  | none => p.outOfMemory dwarfsIoError []
  | some handle =>
      let (ret, host) := p.host.dupStdin
      if ret = dwarfsIoError then (.exhausted, [.close handle], { p with host := host.close handle })
      else { p with host := host }.register st ret memory.node

/-- What `open` and `openat` do with the result of the lookup. -/
def openFoundIn (found : Except Errno Lookup) (flags : UInt32) (memory : OpenMemory) : Traced OpenAnswer :=
  match found with
  | .ok (.inode st) =>
      if flags &&& oWrite ≠ 0 then (.failed .EROFS, [], p)
      else if st.isDir = false ∧ flags &&& oDirectory ≠ 0 then (.failed .ENOTDIR, [], p)
      else if st.isLnk = true ∧ flags &&& oNofollow ≠ 0 then (.failed .ELOOP, [], p)
      else p.acquire st memory
  | .ok (.linkOutside lnk _) => (.linkOutside lnk, [], p)
  | _ => (.failed (if flags &&& oWrite ≠ 0 then .EROFS else .ENOENT), [], p)

/-- `sync_tebako_fdtable::open` -/
def openIn (w : World) (fuel : Nat) (path : CString) (flags : UInt32) (memory : OpenMemory) :
    Option (Traced OpenAnswer) :=
  if memory.descriptor then
    (dwarfsStat w fuel path (flags &&& oNofollow = 0)).map fun found => p.openFoundIn found flags memory
  else some (p.outOfMemory dwarfsIoError [])

/-- `sync_tebako_fdtable::openat` -/
def openatIn (w : World) (fuel : Nat) (vfd : Int) (path : CString) (flags : UInt32)
    (memory : OpenMemory) : Option (Traced OpenAnswer) :=
  match p.fdTable.fstat vfd with
  | none => some (.invalidFd, [], p)
  | some stfd =>
      if stfd.isDir = false then some (.failed .ENOTDIR, [], p)
      else
        let inode := stfd.ino.toUInt32
        match inodeMemfsCall w.memfsTable (fun memfs inode => memfs.inodeAccess inode xOk) inode with
        | .error _ => some (.failed .EACCES, [], p)
        | .ok () =>
            if memory.descriptor then
              (dwarfsInodeRelativeStat w fuel inode path (flags &&& oNofollow = 0)).map fun found =>
                p.openFoundIn found flags memory
            else some (p.outOfMemory dwarfsIoError [])

/-- An opening that there is memory for. -/
def answered (handle : Int) : OpenAnswer × FdTable → Traced OpenAnswer
  | (.opened vfd, table) => ((.opened vfd, (p.enter table vfd).2))
  | (.exhausted, _) => (.exhausted, (p.abandon handle).2)
  | (answer, _) => (answer, [], p)

/-- No descriptor that was open before is closed, and none is closed twice. -/
structure Undisturbed (calls : List HostCall) (after : Process) : Prop where
  fdTable : after.fdTable = p.fdTable
  files : after.host.files = p.host.files
  others : ∀ fd ∈ p.host.files, .close fd ∉ calls
  once : calls.Nodup

def FailsQuietly (result : Traced OpenAnswer) : Prop :=
  result.1.ret < 0 → p.Undisturbed result.2.1 result.2.2

/-- The new handle happens to hold an open descriptor and is not given a number,
or it is given one and there is no room in the table. -/
def Loses (memory : OpenMemory) : Prop :=
  ∃ handle, memory.handle = some handle ∧
    (p.host.dupStdin.1 = dwarfsIoError ∧ handle ∈ p.host.files ∨
      p.host.dupStdin.1 ≠ dwarfsIoError ∧ p.host.dupStdin.1 ∉ p.fdTable ∧ memory.node = false)

end Process

namespace Process

variable {p : Process} {found : Except Errno Lookup} {flags : UInt32} {memory : OpenMemory} {st : FileStat}

theorem undisturbed_nil : p.Undisturbed [] p where
  fdTable := rfl
  files := rfl
  others _ _ := List.not_mem_nil
  once := List.nodup_nil

theorem dupStdin_failed (failed : p.host.dupStdin.1 = dwarfsIoError) :
    p.host.dupStdin = (dwarfsIoError, p.host) := by
  rcases @HostFds.dupStdin_cases p.host with same | ⟨fd, isDir, valid, _, same⟩
  · exact same
  · rw [same, dwarfsIoError] at failed
    omega

/-- Stdin is open where `dup` gives a number, so that the number is not 0. -/
theorem dupStdin_taken (taken : p.host.dupStdin.1 ≠ dwarfsIoError) :
    ∃ fd host, 0 < fd ∧ fd ∉ p.host.files ∧ p.host.dupStdin = (fd, host) ∧
      ∃ isDir, host = { p.host with files := p.host.files.insert fd ⟨isDir, .placeholder⟩ } := by
  rcases @HostFds.dupStdin_cases p.host with same | ⟨fd, isDir, valid, unused, same⟩
  · exact absurd (congrArg Prod.fst same) taken
  · refine ⟨fd, _, ?_, unused, same, isDir, rfl⟩
    cases stdin : p.host.files[(0 : Int)]? with
    | none =>
        rw [HostFds.dupStdin, stdin] at taken
        exact absurd rfl taken
    | some file =>
        have other : fd ≠ 0 := fun zero => unused (zero ▸ mem_of_getElem? stdin)
        omega

theorem openFoundIn_accepted (accepts : Accepts (.ok (.inode st)) flags) :
    p.openFoundIn (.ok (.inode st)) flags memory = p.acquire st memory := by
  obtain ⟨readOnly, directory, link⟩ := accepts_inode.mp accepts
  simp only [openFoundIn, readOnly, ne_eq, not_true_eq_false, ↓reduceIte]
  rw [if_neg directory, if_neg link]

theorem openFoundIn_refused (refused : ¬ Accepts found flags) :
    ∃ answer, (∀ vfd, answer ≠ .opened vfd) ∧ p.openFoundIn found flags memory = (answer, [], p) := by
  unfold openFoundIn
  split
  · rename_i st
    split
    · exact ⟨_, by simp, rfl⟩
    · rename_i readOnly
      split
      · exact ⟨_, by simp, rfl⟩
      · rename_i directory
        split
        · exact ⟨_, by simp, rfl⟩
        · rename_i link
          exact absurd (accepts_inode.mpr ⟨not_not.mp readOnly, directory, link⟩) refused
  · exact ⟨_, by simp, rfl⟩
  · exact ⟨_, by simp, rfl⟩

theorem outOfMemory_early : p.outOfMemory dwarfsIoError [] = (.failed .ENOMEM, [], p) := by
  have negative : ¬ 0 < dwarfsIoError := by decide
  rw [outOfMemory, if_neg negative]

/-- The number is closed by the descriptor, and once more by the handler. -/
theorem register_lost {fd : Int} (taken : 0 < fd) (absent : fd ∉ p.fdTable) :
    p.register st fd false =
      (.failed .ENOMEM, [.close fd, .close fd], { p with host := (p.host.close fd).close fd }) := by
  have none := Std.ExtTreeMap.getElem?_eq_none absent
  simp only [register, none, Bool.false_eq_true, ↓reduceIte, outOfMemory, taken, List.cons_append,
    List.nil_append]

theorem register_opened {fd : Int} {node : Bool} (room : fd ∈ p.fdTable ∨ node = true) :
    (p.register st fd node).1 = .opened fd := by
  cases there : p.fdTable[fd]? with
  | some old => simp only [register, there]
  | none =>
      rcases room with present | enough
      · obtain ⟨old, held⟩ := exists_of_mem present
        rw [there] at held
        cases held
      · simp only [register, there, enough, ↓reduceIte]

theorem ioError_neg : dwarfsIoError < 0 := by decide

theorem abandoned_quietly_iff {handle : Int} : p.FailsQuietly
      (.exhausted, [.close handle], { p with host := p.host.close handle }) ↔
    handle ∉ p.host.files := by
  constructor
  · intro quiet there
    exact (quiet ioError_neg).others handle there (List.mem_singleton.mpr rfl)
  · intro absent _
    refine ⟨rfl, erase_of_not_mem absent, ?_, List.nodup_singleton _⟩
    intro fd there listed
    cases List.mem_singleton.mp listed
    exact absent there

theorem acquire_quietly_iff : p.FailsQuietly (p.acquire st memory) ↔ ¬ p.Loses memory := by
  cases room : memory.handle with
  | none =>
      simp only [acquire, room, outOfMemory_early, Loses, reduceCtorEq, false_and, exists_false,
        not_false_eq_true, iff_true]
      exact fun _ => undisturbed_nil
  | some handle =>
      by_cases failed : p.host.dupStdin.1 = dwarfsIoError
      · have same : p.acquire st memory =
            (.exhausted, [.close handle], { p with host := p.host.close handle }) := by
          simp only [acquire, room, dupStdin_failed failed, ↓reduceIte]
        rw [same, abandoned_quietly_iff]
        simp [Loses, room, failed]
      · obtain ⟨fd, host, taken, _, same, _⟩ := dupStdin_taken failed
        have number : ¬ fd = dwarfsIoError := by
          rw [dwarfsIoError]
          omega
        have acquired : p.acquire st memory = Process.register { p with host := host } st fd memory.node := by
          simp only [acquire, room, same, number, ↓reduceIte]
        rw [acquired]
        by_cases lost : fd ∉ p.fdTable ∧ memory.node = false
        · rw [lost.2, @register_lost { p with host := host } st fd taken lost.1]
          constructor
          · intro quiet
            have once := (quiet ioError_neg).once
            simp at once
          · intro kept
            exact absurd ⟨handle, room, .inr ⟨failed, by rwa [same]⟩⟩ kept
        · have opened : (Process.register { p with host := host } st fd memory.node).1 = .opened fd :=
            register_opened (by rwa [not_and_or, not_not, Bool.not_eq_false] at lost)
          have kept : ¬ p.Loses memory := by
            intro loses
            obtain ⟨_, _, ⟨none, _⟩ | ⟨_, loses⟩⟩ := loses
            · exact failed none
            · rw [same] at loses
              exact lost loses
          refine iff_of_true (fun negative => ?_) kept
          rw [opened, OpenAnswer.ret] at negative
          omega

theorem openFoundIn_quietly_iff :
    p.FailsQuietly (p.openFoundIn found flags memory) ↔ ¬ (Accepts found flags ∧ p.Loses memory) := by
  by_cases accepts : Accepts found flags
  · obtain ⟨st, rfl, _⟩ := id accepts
    rw [openFoundIn_accepted accepts, acquire_quietly_iff]
    simp only [accepts, true_and]
  · obtain ⟨answer, _, same⟩ := @openFoundIn_refused p found flags memory accepts
    simp only [same, accepts, false_and, not_false_eq_true, iff_true]
    exact fun _ => undisturbed_nil

theorem lookup_quietly_iff {looked : Option (Except Errno Lookup)} :
    (∀ result, (if memory.descriptor then looked.map fun found => p.openFoundIn found flags memory
        else some (p.outOfMemory dwarfsIoError [])) = some result → p.FailsQuietly result) ↔
      ¬ (memory.descriptor = true ∧ (∃ found, looked = some found ∧ Accepts found flags) ∧
        p.Loses memory) := by
  cases room : memory.descriptor with
  | false =>
      simp only [Bool.false_eq_true, ↓reduceIte, Option.some.injEq, forall_eq', outOfMemory_early,
        false_and, not_false_eq_true, iff_true]
      exact fun _ => undisturbed_nil
  | true =>
      cases looked with
      | none => simp
      | some found => simp [openFoundIn_quietly_iff]

theorem acquire_of_room {handle : Int} : p.acquire st ⟨true, some handle, true⟩ =
    p.answered handle (if p.host.dupStdin.1 = dwarfsIoError then (.exhausted, p.fdTable)
      else (.opened p.host.dupStdin.1,
        Std.ExtTreeMap.insert p.fdTable p.host.dupStdin.1 ⟨st, 0, 0, p.host.dupStdin.1⟩)) := by
  by_cases failed : p.host.dupStdin.1 = dwarfsIoError
  · simp only [acquire, dupStdin_failed failed, ↓reduceIte, answered, abandon]
  · cases held : p.fdTable[p.host.dupStdin.1]? with
    | none => simp only [acquire, failed, ↓reduceIte, answered, register, enter, held]
    | some old => simp only [acquire, failed, ↓reduceIte, answered, register, enter, held]

theorem openFoundIn_of_room {handle : Int} : p.openFoundIn found flags ⟨true, some handle, true⟩ =
    p.answered handle (p.fdTable.openFound found flags p.host.dupStdin.1) := by
  rcases found with errno | (st | ⟨lnk, st⟩ | ⟨lnk, st⟩ | ⟨lnk, st⟩)
  · rfl
  · simp only [openFoundIn, FdTable.openFound]
    split
    · rfl
    · split
      · rfl
      · split
        · rfl
        · exact acquire_of_room
  · rfl
  · rfl
  · rfl

/-- The openings for which there is memory are those of the calls of a program. -/
theorem openIn_of_room (w : World) (fuel : Nat) (path : CString) (flags : UInt32) (handle : Int) :
    p.openIn w fuel path flags ⟨true, some handle, true⟩ =
      (p.fdTable.open w fuel path flags p.host.dupStdin.1).map (p.answered handle) := by
  simp only [openIn, FdTable.open, ↓reduceIte, Option.map_map]
  congr 1
  funext found
  exact openFoundIn_of_room

end Process

/-- The search permission that `openat` asks for. -/
def Searchable (w : World) (stfd : FileStat) : Prop :=
  stfd.isDir = true ∧
    inodeMemfsCall w.memfsTable (fun memfs inode => memfs.inodeAccess inode xOk) stfd.ino.toUInt32 = .ok ()

/-- An opening that fails disturbs nothing if and only if it does not come to a
new handle that closes what it should not. -/
theorem failing_open_quiet_iff (p : Process) (w : World) (fuel : Nat) (path : CString) (flags : UInt32)
    (memory : OpenMemory) :
    ((∀ result, p.openIn w fuel path flags memory = some result → p.FailsQuietly result) ↔
      ¬ (memory.descriptor = true ∧
        (∃ found, dwarfsStat w fuel path (flags &&& oNofollow = 0) = some found ∧ Accepts found flags) ∧
        p.Loses memory)) ∧
    ∀ vfd, (∀ result, p.openatIn w fuel vfd path flags memory = some result → p.FailsQuietly result) ↔
      ¬ ∃ stfd, p.fdTable.fstat vfd = some stfd ∧ Searchable w stfd ∧ memory.descriptor = true ∧
        (∃ found, dwarfsInodeRelativeStat w fuel stfd.ino.toUInt32 path (flags &&& oNofollow = 0) =
          some found ∧ Accepts found flags) ∧ p.Loses memory := by
  refine ⟨Process.lookup_quietly_iff, fun vfd => ?_⟩
  cases held : p.fdTable.fstat vfd with
  | none =>
      simp only [Process.openatIn, held, Option.some.injEq, forall_eq', reduceCtorEq, false_and,
        exists_false, not_false_eq_true, iff_true]
      exact fun _ => Process.undisturbed_nil
  | some stfd =>
      simp only [Option.some.injEq, exists_eq_left']
      by_cases searchable : Searchable w stfd
      · obtain ⟨directory, access⟩ := id searchable
        simp only [searchable, true_and, ← Process.lookup_quietly_iff]
        simp only [Process.openatIn, held, directory, Bool.true_eq_false, ↓reduceIte, access]
      · simp only [searchable, false_and, not_false_eq_true, iff_true]
        intro result opened
        simp only [Process.openatIn, held] at opened
        split at opened
        · cases opened
          exact fun _ => Process.undisturbed_nil
        · rename_i directory
          split at opened
          · cases opened
            exact fun _ => Process.undisturbed_nil
          · rename_i access
            exact absurd ⟨Bool.not_eq_false _ ▸ directory, access⟩ searchable

/-- No number is left but that of stdin. -/
def fullProcess : Process := { freshProcess with host := { freshProcess.host with limit := 1 } }

/-- The new handle happens to hold 0: stdin is closed. -/
theorem failing_open_closes_stdin : ¬ ∀ (p : Process) (w : World) (fuel : Nat) (path : CString)
    (flags : UInt32) (memory : OpenMemory) (result : Traced OpenAnswer),
    p.openIn w fuel path flags memory = some result → p.FailsQuietly result := by
  intro always
  have opened : ((fullProcess.openIn oneFileWorld 9 (belowMountPoint ['f']) 0 ⟨true, some 0, true⟩).map
      fun result => (result.1, result.2.1)) = some (.exhausted, [.close 0]) := by decide +kernel
  obtain ⟨⟨answer, calls, after⟩, ran, same⟩ := Option.map_eq_some_iff.mp opened
  cases same
  have quiet := always fullProcess oneFileWorld 9 (belowMountPoint ['f']) 0 ⟨true, some 0, true⟩ _ ran
  have there : (0 : Int) ∈ fullProcess.host.files := by decide +kernel
  exact (quiet Process.ioError_neg).others 0 there (List.mem_singleton.mpr rfl)

end Tebako
