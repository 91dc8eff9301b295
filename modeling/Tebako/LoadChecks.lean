import Tebako.NamespaceReads
import Tebako.ProgramStreams

namespace Tebako

open Data Data.OrderedMap

/-! Whether a file can be loaded, as the interpreter asks before it does: the file
is opened, looked at and closed again. -/

def withinTebakoMemfs (path : CString) : Int := if isTebakoPath path then -1 else 0

namespace Process

variable (p : Process)

/-- Whether the host answers a call on attributes is up to `hostFstat`. -/
def statsOk (hostFstat : Bool) : FdOutcome → Bool
  | .returned result => result.ret = dwarfsIoContinue
  | .host _ => hostFstat

def tebakoFileLoadOk (w : World) (fuel : Nat) (path : CString) (hosted : Option Bool) (hostFstat : Bool)
    (handle : Int) : Option (Traced Int) :=
  if withinTebakoMemfs path ≠ 0 then
    (p.tebakoOpen w fuel (some path) 0 none hosted handle).map fun (fd, calls, opened) =>
      if fd ≠ -1 then
        let st := opened.tebakoFstat fd
        let (_, more, closed) := opened.tebakoClose fd
        (if statsOk hostFstat st then -1 else 0, calls ++ st.calls ++ more, closed)
      else (0, calls, opened)
  else some (0, [], p)

end Process

/-- The calls of a program, with checks between them. -/
inductive CheckedOp where
  | call (op : ProgramOp)
  | loadOk (w : World) (fuel : Nat) (path : CString) (hosted : Option Bool) (hostFstat : Bool) (handle : Int)

def CheckedOp.made : CheckedOp → Option ProgramOp
  | .call op => some op
  | .loadOk _ _ _ _ _ _ => none

inductive CheckedAnswer where
  | program (answer : ProgramAnswer)
  | loadOk (ret : Option Int)

/-- A check that does not come to its end leaves the process alone. -/
def checkedStep : Machine Process CheckedOp CheckedAnswer
  | .call op, p => (.program (programStep op p).1, (programStep op p).2)
  | .loadOk w fuel path hosted hostFstat handle, p =>
      match p.tebakoFileLoadOk w fuel path hosted hostFstat handle with
      | none => (.loadOk none, p)
      | some (ret, _, after) => (.loadOk (some ret), after)

namespace Process

/-- A new handle does not happen to hold a number that is taken. -/
def AllowsChecked (p : Process) : CheckedOp → Prop
  | .call op => p.Disciplined op
  | .loadOk _ _ _ _ _ handle => handle ∉ p.host.files

variable {p opened : Process} {w : World} {fuel : Nat} {path : CString} {hosted : Option Bool} {handle fd ret : Int}
variable {hostFstat : Bool} {calls : List HostCall} {result : Traced Int}

/-! ## One check -/

theorem close_new {file : HostFd} (unused : fd ∉ p.host.files) :
    ({ p.host with files := p.host.files.insert fd file } : HostFds).close fd = p.host := by
  simp only [HostFds.close, erase_insert, erase_of_not_mem unused]

theorem Owned.not_mem_fdTable (owned : p.Owned) (unused : fd ∉ p.host.files) : fd ∉ p.fdTable :=
  fun there => unused (owned.mem_files there)

/-- What a check opens: nothing, a file of a memfs under a new number, or one of
the host under a new number. -/
inductive Opens (p : Process) : Traced Int → Prop where
  | nothing {calls : List HostCall} (untouched : p.Untouched calls) : Opens p (-1, calls, p)
  | memfs {fd : Int} {st : FileStat} {file : HostFd} (valid : 0 ≤ fd) (unused : fd ∉ p.host.files) :
      Opens p (fd, [], { p with
        fdTable := Std.ExtTreeMap.insert p.fdTable fd ⟨st, 0, 0, fd⟩
        host := { p.host with files := p.host.files.insert fd file } })
  | host {fd : Int} {file : HostFd} {calls : List HostCall} (valid : 0 ≤ fd) (unused : fd ∉ p.host.files)
      (untouched : p.Untouched calls) :
      Opens p (fd, calls, { p with host := { p.host with files := p.host.files.insert fd file } })

theorem opens_of_tebakoOpen (owned : p.Owned) (spare : handle ∉ p.host.files)
    (done : p.tebakoOpen w fuel (some path) 0 none hosted handle = some result) : p.Opens result := by
  obtain ⟨⟨outcome, table⟩, answered, rfl⟩ := Option.map_eq_some_iff.mp done
  have sound := tebakoOpen_answered answered
  cases outcome with
  | returned vfd =>
      obtain ⟨same, valid, st, rfl⟩ := sound.returned vfd rfl
      rcases p.host.dupStdin_cases with failed | ⟨number, isDir, nonneg, unused, taken⟩
      · rw [failed] at same
        exact absurd same valid
      · rw [taken] at same
        subst same
        have absent : p.fdTable[vfd]? = none :=
          Std.ExtTreeMap.getElem?_eq_none (owned.not_mem_fdTable unused)
        simp only [Process.opened, enter, absent, taken]
        exact .memfs nonneg unused
  | failed errno => exact .nothing untouched_nil
  | exhausted =>
      have same : p.host.close handle = p.host := by
        simp only [HostFds.close, erase_of_not_mem spare]
      simp only [Process.opened, abandon, same]
      refine .nothing fun call listed number about => ?_
      obtain rfl := List.mem_singleton.mp listed
      obtain rfl : handle = number := Option.some.inj about
      exact owned.not_mem_fdTable spare
  | host call =>
      have untouched : p.Untouched call.calls := by
        intro issued listed number about
        cases dir : call.dir with
        | none => simp [HostOpen.calls, dir] at listed
        | some other =>
            simp only [HostOpen.calls, dir, List.mem_singleton] at listed
            subst listed
            simp only [HostCall.fd] at about
            split at about
            · cases about
            · rename_i relative
              cases about
              exact (sound.called call rfl _ dir).resolve_left relative
      cases hosted with
      | none => exact .nothing untouched
      | some isDir =>
          simp only [Process.opened, openHost]
          rcases @HostFds.take_cases p.host ⟨isDir, .application⟩ with full | ⟨number, nonneg, unused, taken⟩
          · simp only [full]
            exact .nothing untouched
          · simp only [taken]
            exact .host nonneg unused untouched

/-- What a check does with the number that it has got. -/
theorem Opens.restored (owned : p.Owned) (opens : p.Opens (fd, calls, opened)) (valid : fd ≠ -1) :
    (opened.tebakoClose fd).2.2 = p ∧ p.Untouched (opened.tebakoFstat fd).calls ∧
      p.Untouched (opened.tebakoClose fd).2.1 ∧ p.Untouched calls := by
  cases opens with
  | nothing => exact absurd rfl valid
  | @memfs _ st file nonneg unused =>
      have absent := owned.not_mem_fdTable unused
      have held : (Std.ExtTreeMap.insert p.fdTable fd ⟨st, 0, 0, fd⟩)[fd]? = some ⟨st, 0, 0, fd⟩ :=
        Std.ExtTreeMap.getElem?_insert_self
      have own : p.Untouched [.close fd] := by
        intro call listed number about
        obtain rfl := List.mem_singleton.mp listed
        obtain rfl : fd = number := Option.some.inj about
        exact absent
      have closed : passOn { p with
            fdTable := Std.ExtTreeMap.insert p.fdTable fd ⟨st, 0, 0, fd⟩
            host := { p.host with files := p.host.files.insert fd file } } fd (.close fd) { ret := dwarfsIoContinue } =
          .returned { ret := dwarfsIoContinue } := rfl
      have looked : (tebakoFstat { p with
            fdTable := Std.ExtTreeMap.insert p.fdTable fd ⟨st, 0, 0, fd⟩
            host := { p.host with files := p.host.files.insert fd file } } fd).calls = [] := by
        simp only [tebakoFstat, FdTable.fstat, held]
        rfl
      rw [looked]
      simp only [tebakoClose, closeFd, FdTable.close, held, closed, reduceCtorEq, ↓reduceIte, close_new unused,
        erase_insert, erase_of_not_mem absent, FdOutcome.calls, List.append_nil]
      exact ⟨trivial, untouched_nil, own, untouched_nil⟩
  | @host _ file _ nonneg unused untouched =>
      have absent := owned.not_mem_fdTable unused
      have missing : p.fdTable[fd]? = none := Std.ExtTreeMap.getElem?_eq_none absent
      have taken : (p.host.files.insert fd file).contains fd = true := by simp
      have own (call : HostCall) (about : call.fd = some fd) : p.Untouched [call] := by
        intro other listed number same
        obtain rfl := List.mem_singleton.mp listed
        obtain rfl : fd = number := Option.some.inj (about.symm.trans same)
        exact absent
      have asked (call : HostCall) : passOn { p with
          host := { p.host with files := p.host.files.insert fd file } } fd call { ret := dwarfsInvalidFd } =
          .host call := by
        simp only [passOn, validSystemFd, taken, ↓reduceIte]
      have looked : tebakoFstat { p with
          host := { p.host with files := p.host.files.insert fd file } } fd = .host (.fstat fd) := by
        have none : p.fdTable.fstat fd = none := by simp only [FdTable.fstat, missing, Option.map_none]
        simp only [tebakoFstat, none]
        exact asked _
      rw [looked]
      simp only [tebakoClose, closeFd, missing, asked, ↓reduceIte, close_new unused, FdOutcome.calls, List.nil_append]
      exact ⟨trivial, own _ rfl, own _ rfl, untouched⟩

/-- A check leaves the process as it was, and is about no file of the program. -/
theorem tebakoFileLoadOk_restores (owned : p.Owned) (spare : handle ∉ p.host.files)
    (done : p.tebakoFileLoadOk w fuel path hosted hostFstat handle = some result) :
    result.2.2 = p ∧ p.Untouched result.2.1 := by
  unfold tebakoFileLoadOk at done
  split at done
  · obtain ⟨⟨fd, calls, opened⟩, opening, rfl⟩ := Option.map_eq_some_iff.mp done
    have opens := opens_of_tebakoOpen owned spare opening
    dsimp only
    split
    · rename_i valid
      obtain ⟨same, looked, closed, before⟩ := opens.restored owned valid
      exact ⟨same, untouched_append.mpr ⟨untouched_append.mpr ⟨before, looked⟩, closed⟩⟩
    · rename_i invalid
      cases opens with
      | nothing untouched => exact ⟨rfl, untouched⟩
      | memfs nonneg => exact absurd (by omega) invalid
      | host nonneg => exact absurd (by omega) invalid
  · cases done
    exact ⟨rfl, untouched_nil⟩

/-- A path that leads somewhere can be loaded, as long as there is a number for it. -/
theorem tebakoFileLoadOk_of_leads {given : CString} {finish : Node} {st : FileStat} (owned : p.Owned)
    (known : isTebakoPath given = true) (reached : w.LeadsTo given path finish st) (number : 0 ≤ p.host.dupStdin.1) :
    ∃ enough, ∀ fuel ≥ enough, ∃ calls,
      p.tebakoFileLoadOk w fuel given hosted hostFstat handle = some (-1, calls, p) := by
  have free : p.host.dupStdin.1 ≠ dwarfsIoError := by
    rw [dwarfsIoError]
    omega
  have plain : OpensPlainly 0 st := ⟨by decide, by decide, fun asked => absurd (by decide) asked⟩
  obtain ⟨enough, opens⟩ :=
    @World.LeadsTo.open w st given path finish 0 none p.host.dupStdin.1 reached plain free p.fdTable
  refine ⟨enough, fun fuel more => ?_⟩
  have within : withinTebakoMemfs given ≠ 0 := by simp [withinTebakoMemfs, known]
  rcases p.host.dupStdin_cases with failed | ⟨fd, isDir, nonneg, unused, taken⟩
  · rw [failed] at number
    exact absurd number (by simp)
  · have absent := owned.not_mem_fdTable unused
    have none : p.fdTable[fd]? = none := Std.ExtTreeMap.getElem?_eq_none absent
    have opened := opens fuel more
    rw [taken] at opened
    have entered : p.tebakoOpen w fuel (some given) 0 Option.none hosted handle = some (fd, [], { p with
        fdTable := Std.ExtTreeMap.insert p.fdTable fd ⟨st, 0, 0, fd⟩
        host := { p.host with files := p.host.files.insert fd ⟨isDir, .placeholder⟩ } }) := by
      simp only [tebakoOpen, taken, opened, Option.map_some, Process.opened, enter, none]
    have valid : fd ≠ -1 := by omega
    have restored := (@Opens.memfs p fd st ⟨isDir, .placeholder⟩ nonneg unused).restored owned valid
    have looked : statsOk hostFstat (tebakoFstat { p with
        fdTable := Std.ExtTreeMap.insert p.fdTable fd ⟨st, 0, 0, fd⟩
        host := { p.host with files := p.host.files.insert fd ⟨isDir, .placeholder⟩ } } fd) = true := by
      have held : (Std.ExtTreeMap.insert p.fdTable fd ⟨st, 0, 0, fd⟩)[fd]? = some ⟨st, 0, 0, fd⟩ :=
        Std.ExtTreeMap.getElem?_insert_self
      simp only [tebakoFstat, FdTable.fstat, held]
      rfl
    simp only [tebakoFileLoadOk, within, ne_eq, not_false_eq_true, ↓reduceIte, entered, Option.map_some, valid, looked]
    exact ⟨_, by rw [restored.1]⟩

/-- A path that the lookup fails for cannot be loaded. -/
theorem tebakoFileLoadOk_of_failed {given : CString} {errno : Errno} (known : isTebakoPath given = true)
    (named : toTebakoPath w.cwd given = some path) (failed : dwarfsStat w fuel path true = some (.error errno)) :
    ∃ calls after, p.tebakoFileLoadOk w fuel given hosted hostFstat handle = some (0, calls, after) := by
  have within : withinTebakoMemfs given ≠ 0 := by simp [withinTebakoMemfs, known]
  have follows : decide ((0 : UInt32) &&& oNofollow = 0) = true := by decide
  have writes : ¬ (0 : UInt32) &&& oWrite ≠ 0 := by decide
  have answered : Tebako.tebakoOpen w fuel (some given) 0 none p.host.dupStdin.1 p.fdTable =
      some (.failed .ENOENT, p.fdTable) := by
    simp only [Tebako.tebakoOpen, named, FdTable.open, follows, failed, Option.map_some, FdTable.openFound, writes,
      ↓reduceIte, openAnswered]
  simp only [tebakoFileLoadOk, within, ne_eq, not_false_eq_true, ↓reduceIte, tebakoOpen, answered, Option.map_some,
    Process.opened]
  exact ⟨_, _, rfl⟩

/-! ## Runs with checks -/

theorem Kept.check {op : CheckedOp} (kept : p.Kept) (allowed : p.AllowsChecked op) (check : op.made = none) :
    (checkedStep op p).2 = p := by
  cases op with
  | call op => cases check
  | loadOk w fuel path hosted hostFstat handle =>
      cases done : p.tebakoFileLoadOk w fuel path hosted hostFstat handle with
      | none => simp only [checkedStep, done]
      | some result =>
          simp only [checkedStep, done]
          exact (tebakoFileLoadOk_restores kept.owned allowed done).1

theorem Kept.checkedStep {op : CheckedOp} (kept : p.Kept) (allowed : p.AllowsChecked op) :
    (checkedStep op p).2.Kept := by
  cases op with
  | call op => exact kept.step allowed
  | loadOk w fuel path hosted hostFstat handle =>
      rw [kept.check allowed rfl]
      exact kept

/-- The program goes on as if there had been no check. -/
theorem checkedStep_watches :
    Machine.Watches Tebako.checkedStep programStep CheckedOp.made CheckedAnswer.program AllowsChecked
      (fun _ _ => True) (fun p image => p.Kept ∧ p = image) where
  answer {p image op call} related _ watched _ := by
    obtain ⟨_, rfl⟩ := related
    cases op with
    | call op =>
        cases watched
        rfl
    | loadOk w fuel path hosted hostFstat handle => cases watched
  next {p image op call} related allowed watched _ := by
    obtain ⟨kept, rfl⟩ := related
    cases op with
    | call op =>
        cases watched
        exact ⟨kept.step allowed, rfl⟩
    | loadOk w fuel path hosted hostFstat handle => cases watched
  idle {p image op} related allowed watched := by
    obtain ⟨kept, rfl⟩ := related
    rw [kept.check allowed watched]
    exact ⟨kept, rfl⟩

end Process

/-- Wherever a program asks whether files can be loaded, it goes on as if it had
not asked; and the answer is whether the path leads to anything. -/
theorem load_checks_leave_no_trace (start p : Process) (noFds : start.fdTable = ∅) (noStreams : start.dsTable = ∅)
    (reached : Machine.Reaches checkedStep Process.AllowsChecked start p) :
    (∀ ops, Machine.Allows checkedStep Process.AllowsChecked ops p →
      Machine.after checkedStep ops p = Machine.after programStep (ops.filterMap CheckedOp.made) p ∧
      Machine.seen CheckedOp.made ops (Machine.answers checkedStep ops p) =
        (Machine.answers programStep (ops.filterMap CheckedOp.made) p).map CheckedAnswer.program) ∧
    ∀ w given hosted hostFstat handle, isTebakoPath given = true → handle ∉ p.host.files →
      (∀ fuel result, p.tebakoFileLoadOk w fuel given hosted hostFstat handle = some result →
        p.Untouched result.2.1) ∧
      (∀ path finish st, w.LeadsTo given path finish st → 0 ≤ p.host.dupStdin.1 → ∃ enough, ∀ fuel ≥ enough,
        (checkedStep (.loadOk w fuel given hosted hostFstat handle) p).1 = .loadOk (some (-1))) ∧
      ∀ fuel path errno, toTebakoPath w.cwd given = some path → dwarfsStat w fuel path true = some (.error errno) →
        (checkedStep (.loadOk w fuel given hosted hostFstat handle) p).1 = .loadOk (some 0) := by
  have kept : p.Kept := reached.invariant (reachable_kept noFds noStreams .start) fun _ _ kept allowed =>
    kept.checkedStep allowed
  have fits (ops : List ProgramOp) (image : Process) : Machine.Allows programStep (fun _ _ => True) ops image := by
    induction ops generalizing image with
    | nil => trivial
    | cons op rest ih => exact ⟨trivial, ih _⟩
  refine ⟨fun ops allowed => ?_, fun w given hosted hostFstat handle known spare => ?_⟩
  · exact ⟨(Process.checkedStep_watches.after_related ⟨kept, rfl⟩ allowed (fits _ _)).2,
      Process.checkedStep_watches.seen_eq ⟨kept, rfl⟩ allowed (fits _ _)⟩
  · refine ⟨fun fuel result done => (Process.tebakoFileLoadOk_restores kept.owned spare done).2, ?_, ?_⟩
    · intro path finish st leads number
      obtain ⟨enough, ran⟩ := @Process.tebakoFileLoadOk_of_leads p w path hosted handle hostFstat given finish st
        kept.owned known leads number
      refine ⟨enough, fun fuel more => ?_⟩
      obtain ⟨calls, done⟩ := ran fuel more
      simp only [checkedStep, done]
    · intro fuel path errno named failed
      obtain ⟨calls, after, done⟩ :=
        @Process.tebakoFileLoadOk_of_failed p w fuel path hosted handle hostFstat given errno known named failed
      simp only [checkedStep, done]

def checkStored : CheckedOp := .loadOk storedWorld 40 storedPath none true 9

/-- A file is locked and looked at, with checks for another one. -/
def checkedRun : List CheckedOp :=
  [.call (.file (.flock 1 2)), checkStored, .call (.file (.fstat 1)), checkStored]

theorem checked_run_alike :
    Machine.after checkedStep checkedRun oneFileOpen =
      Machine.after programStep [.file (.flock 1 2), .file (.fstat 1)] oneFileOpen ∧
    ∃ enough, ∀ fuel ≥ enough,
      (checkedStep (.loadOk storedWorld fuel storedPath none true 9) oneFileOpen).1 = .loadOk (some (-1)) := by
  have reached : Machine.Reaches checkedStep Process.AllowsChecked freshProcess oneFileOpen :=
    .step (CheckedOp.call (.file openOneFile)) .start
      (show Process.AllowsChecked _ (.call (.file openOneFile)) from
        ⟨openOneFile_permitted.1, openOneFile_permitted.2, trivial⟩)
  obtain ⟨alike, answered⟩ := load_checks_leave_no_trace freshProcess oneFileOpen rfl rfl reached
  constructor
  · refine (alike checkedRun ⟨⟨nofun, trivial, trivial⟩, ?_, ⟨nofun, trivial, trivial⟩, ?_, trivial⟩).1
    · exact show (9 : Int) ∉ (checkedStep (.call (.file (.flock 1 2))) oneFileOpen).2.host.files by decide +kernel
    · exact show (9 : Int) ∉ (Machine.after checkedStep [.call (.file (.flock 1 2)), checkStored,
        .call (.file (.fstat 1))] oneFileOpen).host.files by decide +kernel
  · exact (answered storedWorld storedPath none true 9 (by decide) (by decide +kernel)).2.1 _ _ _ storedWorld_leads
      (by decide +kernel)

end Tebako
