import Tebako.MountState
import Tebako.ProgramStreams

namespace Tebako

open Data Data.OrderedMap

/-! The numbers of the process over the life of the memfs.

While images are mounted, files of the memfs take numbers from the host. The
release of the root image destroys them all: the descriptors of the open streams
first, and then what is left in the table. -/

namespace Process

/-- The loop of `sync_tebako_dstable::close_all`. -/
def closeStreams : List (Nat × TebakoDs) → Process → List HostCall × Process
  | [], p => ([], p)
  | entry :: rest, p =>
      let (_, calls, after) := p.closeFd entry.2.vfd
      let (more, last) := closeStreams rest after
      (calls ++ more, last)

variable (p : Process)

def closeAllStreams : List HostCall × Process :=
  let (calls, after) := closeStreams p.dsTable.toList p
  (calls, { after with dsTable := ∅ })

/-- `sync_tebako_fdtable::close_all`, in which every descriptor is destroyed. -/
def closeAllFds : List HostCall × Process :=
  let handles := p.fdTable.toList.map fun entry => entry.2.handle
  (handles.map HostCall.close,
    { p with fdTable := p.fdTable.closeAll, host := handles.foldl HostFds.close p.host })

/-- The part of `release_memfs_resources` that the host sees. -/
def releaseResources : List HostCall × Process :=
  let (calls, after) := p.closeAllStreams
  let (more, last) := after.closeAllFds
  (calls ++ more, last)

end Process

/-- The state of the library, with the host's numbers and streams. -/
structure Session extends Globals where
  kfdTable : KfdTable
  host : HostFds

inductive SessionOp where
  | root (op : RootOp)
  | program (op : ProgramOp)

namespace Session

variable (s : Session)

def process : Process := ⟨s.fdTable, s.dsTable, s.kfdTable, s.host⟩

def withProcess (p : Process) : Session :=
  { s with fdTable := p.fdTable, dsTable := p.dsTable, kfdTable := p.kfdTable, host := p.host }

/-- The call comes to the release of the files that are open. Mounting does so over
a root image that is there already, once the options have all been accepted. -/
def Releases (parsers : OptionParsers) : RootOp → Prop
  | .mountRoot texts _ => (setOptions (texts.setters parsers) s.options).1 = true ∧ (0 : UInt32) ∈ s.memfsTable
  | .mountMemfs _ _ _ => False
  | .mountPath _ _ _ => False
  | .unmountRoot => True

instance (parsers : OptionParsers) : (op : RootOp) → Decidable (s.Releases parsers op)
  | .mountRoot _ _ => inferInstanceAs (Decidable (_ ∧ _))
  | .mountMemfs _ _ _ => inferInstanceAs (Decidable False)
  | .mountPath _ _ _ => inferInstanceAs (Decidable False)
  | .unmountRoot => inferInstanceAs (Decidable True)

/-- The call as `rootStep` has it, with what it does to the host. -/
def rootCall (parsers : OptionParsers) (loader : Loader) (op : RootOp) : List HostCall × Session :=
  let g := (rootStep parsers loader op s.toGlobals).2
  if s.Releases parsers op then
    let (calls, p) := s.process.releaseResources
    (calls, ⟨g, p.kfdTable, p.host⟩)
  else ([], ⟨g, s.kfdTable, s.host⟩)

end Session

/-- The images that a program's call finds are arbitrary. -/
def sessionStep (parsers : OptionParsers) (loader : Loader) : Machine Session SessionOp ProgramAnswer
  | .root op, s => (.calls (s.rootCall parsers loader op).1, (s.rootCall parsers loader op).2)
  | .program op, s => ((programStep op s.process).1, s.withProcess (programStep op s.process).2)

/-! ## Numbers that get lost -/

namespace HostFds

/-- No number is held for a memfs that was not held for one before. -/
def TakesNone (host after : HostFds) : Prop :=
  ∀ (vfd : Int) (isDir : Bool), after.files[vfd]? = some ⟨isDir, .placeholder⟩ →
    host.files[vfd]? = some ⟨isDir, .placeholder⟩

variable {host : HostFds} {file : HostFd} {vfd : Int} {dirp : Nat}

theorem takesNone_refl : host.TakesNone host := fun _ _ held => held

theorem takesNone_insert (streams : Std.ExtTreeMap Nat Int) (apart : file.holder ≠ .placeholder) :
    host.TakesNone { host with files := host.files.insert vfd file, streams := streams } := by
  intro number isDir held
  rcases getElem?_insert_iff.mp held with ⟨_, rfl⟩ | ⟨_, before⟩
  · exact absurd rfl apart
  · exact before

theorem takesNone_erase (streams : Std.ExtTreeMap Nat Int) :
    host.TakesNone { host with files := host.files.erase vfd, streams := streams } :=
  fun _ _ held => (getElem?_erase_iff.mp held).2

theorem takesNone_take (apart : file.holder ≠ .placeholder) : host.TakesNone (host.take file).2 := by
  rcases @take_cases host file with same | ⟨fd, _, _, taken⟩
  · rw [same]
    exact takesNone_refl
  · rw [taken]
    exact takesNone_insert _ apart

theorem takesNone_opendir : host.TakesNone (host.opendir dirp).2 := by
  unfold opendir
  split
  · exact takesNone_refl
  · exact takesNone_insert _ nofun

theorem takesNone_fdopendir : host.TakesNone (host.fdopendir vfd dirp).2 := by
  unfold fdopendir
  split
  · exact takesNone_refl
  · split
    · exact takesNone_insert _ nofun
    · exact takesNone_refl

theorem takesNone_closedir : host.TakesNone (host.closedir dirp) := by
  unfold closedir
  split
  · exact takesNone_refl
  · exact takesNone_erase _

end HostFds

namespace Process

/-- The host holds the number for a file of the memfs, and the table has none. -/
def Stray (p : Process) (vfd : Int) : Prop :=
  (∃ isDir, p.host.files[vfd]? = some ⟨isDir, .placeholder⟩) ∧ vfd ∉ p.fdTable

def LosesNone (p after : Process) : Prop := ∀ vfd, after.Stray vfd → p.Stray vfd

variable {p after last : Process} {w : World} {fuel dirp : Nat} {vfd handle ret : Int} {path : CString}
variable {table : FdTable} {calls : List HostCall} {into : StreamMemory} {dirname : Option CString}

theorem LosesNone.refl : p.LosesNone p := fun _ stray => stray

theorem LosesNone.trans (first : p.LosesNone after) (second : after.LosesNone last) : p.LosesNone last :=
  fun vfd stray => first vfd (second vfd stray)

theorem losesNone_of (hosts : p.host.TakesNone after.host) (kept : ∀ vfd ∈ p.fdTable, vfd ∈ after.fdTable) :
    p.LosesNone after :=
  fun vfd ⟨⟨isDir, held⟩, absent⟩ => ⟨⟨isDir, hosts vfd isDir held⟩, fun there => absent (kept vfd there)⟩

theorem losesNone_of_host (hosts : p.host.TakesNone after.host) (same : after.fdTable = p.fdTable) :
    p.LosesNone after :=
  losesNone_of hosts fun _ there => same ▸ there

theorem losesNone_of_sameHandles (same : FdTable.SameHandles p.fdTable table) :
    p.LosesNone { p with fdTable := table } :=
  losesNone_of HostFds.takesNone_refl fun _ there =>
    (@mem_of_sameHandles { p with fdTable := table } _ _ same).mpr there

/-! ### Opening and closing -/

theorem closeFd_losesNone (owned : p.Owned) : p.LosesNone (p.closeFd vfd).2.2 := by
  rcases @closeFd_cases p vfd with ⟨_, result⟩ | ⟨fd, held, result⟩
  · rw [result]
    exact .refl
  · rw [result, (owned.held vfd fd held).1]
    intro number ⟨⟨isDir, placed⟩, absent⟩
    obtain ⟨different, before⟩ := getElem?_erase_iff.mp placed
    exact ⟨⟨isDir, before⟩, fun there => absent (mem_erase_iff.mpr ⟨different, there⟩)⟩

theorem tebakoClose_losesNone (owned : p.Owned) : p.LosesNone (p.tebakoClose vfd).2.2 := by
  have closing := @closeFd_losesNone p vfd owned
  simp only [tebakoClose]
  split
  · exact closing.trans (losesNone_of_host (HostFds.takesNone_erase _) rfl)
  · exact closing

theorem enter_losesNone (owned : p.Owned) (enters : p.Enters vfd table) :
    p.LosesNone (p.enter table vfd).2.2 := by
  rw [(enter_sound owned enters).1]
  obtain ⟨rfl, valid, st, rfl⟩ := enters
  rcases p.host.dupStdin_cases with failed | ⟨fd, isDir, _, _, taken⟩
  · rw [failed] at valid
    exact absurd rfl valid
  · simp only [taken]
    intro number ⟨⟨kind, placed⟩, absent⟩
    rcases getElem?_insert_iff.mp placed with ⟨rfl, _⟩ | ⟨_, before⟩
    · exact absurd (mem_insert_iff.mpr (.inl rfl)) absent
    · exact ⟨⟨kind, before⟩, fun there => absent (mem_insert_iff.mpr (.inr there))⟩

theorem abandon_losesNone : p.LosesNone (p.abandon handle).2.2 :=
  losesNone_of_host (HostFds.takesNone_erase _) rfl

theorem opened_losesNone {outcome : OpenOutcome} {hosted : Option Bool} (owned : p.Owned)
    (answered : Answered p.fdTable p.host.dupStdin.1 outcome table) :
    p.LosesNone (p.opened hosted handle (outcome, table)).2.2 := by
  cases outcome with
  | returned vfd => exact enter_losesNone owned (answered.returned vfd rfl)
  | failed errno => exact .refl
  | exhausted => exact abandon_losesNone
  | host call =>
      cases hosted with
      | none => exact .refl
      | some isDir => exact losesNone_of_host (HostFds.takesNone_take nofun) rfl

theorem openDir_losesNone {outside : Option CString} (owned : p.Owned)
    (done : p.openDir w fuel path handle = some ((outside, vfd), calls, after)) : p.LosesNone after := by
  obtain ⟨⟨answer, table⟩, opened, same⟩ := Option.map_eq_some_iff.mp done
  cases answer with
  | opened number =>
      obtain ⟨found, _, entered⟩ := Option.map_eq_some_iff.mp opened
      have kept := enter_losesNone owned ((answered_opened entered).returned number rfl)
      cases same
      exact kept
  | linkOutside lnk =>
      cases same
      exact .refl
  | failed errno =>
      cases same
      exact .refl
  | exhausted =>
      cases same
      exact abandon_losesNone
  | invalidFd =>
      cases same
      exact .refl

/-! ### Streams -/

theorem openStream_losesNone : p.LosesNone (p.openStream w vfd into).2 := by
  rcases @openStream_cases p vfd w into with same | ⟨ds, same⟩
  · rw [same]
    exact .refl
  · rw [same]
    exact .refl

theorem hostStream_losesNone {opened : Bool × HostFds} (hosts : p.host.TakesNone opened.2) :
    p.LosesNone (p.hostStream opened dirp).2 := by
  unfold hostStream
  split
  · exact losesNone_of_host hosts rfl
  · exact .refl

theorem openHostDir_losesNone {hosted : Bool} : p.LosesNone (p.openHostDir hosted into).2 := by
  unfold openHostDir
  split
  · exact hostStream_losesNone HostFds.takesNone_opendir
  · exact .refl

theorem tebakoOpendir_losesNone {hosted : Bool} {result : Traced Nat} (owned : p.Owned)
    (done : p.tebakoOpendir w fuel dirname hosted handle into = some result) : p.LosesNone result.2.2 := by
  cases dirname with
  | none =>
      cases done
      exact .refl
  | some name =>
      cases known : toTebakoPath w.cwd name with
      | none =>
          simp only [tebakoOpendir, known, Option.some.injEq] at done
          subst done
          exact openHostDir_losesNone
      | some path =>
          simp only [tebakoOpendir, known] at done
          obtain ⟨⟨⟨outside, vfd⟩, calls, after⟩, opened, same⟩ := Option.map_eq_some_iff.mp done
          have opening := openDir_losesNone owned opened
          simp only at same
          split at same
          · subst same
            exact opening.trans openHostDir_losesNone
          · split at same
            · subst same
              exact opening
            · subst same
              exact opening.trans openStream_losesNone

theorem tebakoFdopendir_losesNone : p.LosesNone (p.tebakoFdopendir w vfd into).2.2 := by
  have opening := @openStream_losesNone p w vfd into
  simp only [tebakoFdopendir]
  split
  · exact opening
  · exact opening.trans (hostStream_losesNone HostFds.takesNone_fdopendir)

theorem closeStream_losesNone (owned : p.Owned) : p.LosesNone (p.closeStream dirp).2.2 := by
  cases held : p.dsTable[dirp]? with
  | none =>
      simp only [closeStream, held]
      exact .refl
  | some ds =>
      simp only [closeStream, held]
      exact @closeFd_losesNone p ds.vfd owned

theorem tebakoClosedir_losesNone (owned : p.Owned) : p.LosesNone (p.tebakoClosedir dirp).2.2 := by
  have closing := @closeStream_losesNone p dirp owned
  simp only [tebakoClosedir]
  split
  · split
    · exact closing.trans (losesNone_of_host HostFds.takesNone_closedir rfl)
    · exact closing
  · exact closing

theorem tebakoScandir_losesNone {wanted : Bool} {sel : TebakoDirent → Bool}
    {result : Traced (Option (List TebakoDirent))} (owned : p.Owned) (places : p.Places into)
    (spares : p.SparesDir w fuel dirname handle)
    (done : p.tebakoScandir w fuel dirname wanted sel handle into = some result) : p.LosesNone result.2.2 := by
  cases dirname with
  | none =>
      cases done
      exact .refl
  | some name =>
      cases known : toTebakoPath w.cwd name with
      | none =>
          simp only [tebakoScandir, known, Option.some.injEq] at done
          subst done
          exact .refl
      | some path =>
          simp only [tebakoScandir, known] at done
          obtain ⟨⟨⟨outside, vfd⟩, calls, after⟩, opened, rest⟩ := Option.bind_eq_some_iff.mp done
          have opening := openDir_losesNone owned opened
          obtain ⟨owned, _, _, listed⟩ := openDir_sound owned (spares name path rfl known) opened
          have unlisted : into.address ∉ after.kfdTable := listed ▸ places.2.2
          simp only at rest
          split at rest
          · cases rest
            exact opening
          · rcases stream : after.openStream w vfd into with ⟨dirp, streaming⟩
            have streams := @openStream_losesNone after w vfd into
            have kept := (@Owned.openStream after vfd w into owned unlisted).1
            rw [stream] at kept streams
            simp only [stream] at rest
            split at rest
            · cases rest
              exact opening.trans streams
            · obtain ⟨⟨list, scanned⟩, read, same⟩ := Option.map_eq_some_iff.mp rest
              have reading : Owned { streaming with dsTable := scanned } :=
                ⟨kept.held, fun other there => kept.apart other (scanEntries_mem read other there)⟩
              have closing := @closeStream_losesNone { streaming with dsTable := scanned } dirp reading
              subst same
              exact opening.trans (streams.trans closing)

/-! ### The calls of a program -/

theorem processStep_losesNone {op : FileOp} (owned : p.Owned) (allocates : p.Allocates op)
    (permitted : p.Permits op) : p.LosesNone (processStep op p).2 := by
  cases op with
  | openFile w fuel path flags mode hosted handle =>
      cases done : Tebako.tebakoOpen w fuel path flags mode p.host.dupStdin.1 p.fdTable with
      | none =>
          simp only [processStep, tebakoOpen, done]
          exact .refl
      | some result =>
          simp only [processStep, tebakoOpen, done]
          exact opened_losesNone owned (tebakoOpen_answered done)
  | openAt w fuel vfd path flags mode hosted handle =>
      cases done : Tebako.tebakoOpenat w fuel vfd path flags mode p.host.dupStdin.1 p.fdTable with
      | none =>
          simp only [processStep, tebakoOpenat, done]
          exact .refl
      | some result =>
          simp only [processStep, tebakoOpenat, done]
          exact opened_losesNone owned (tebakoOpenat_answered done)
  | close vfd => exact tebakoClose_losesNone owned
  | read memfsTable vfd nbyte => exact losesNone_of_sameHandles FdTable.read_sameHandles
  | pread memfsTable vfd nbyte offset => exact .refl
  | readv memfsTable vfd iov => exact losesNone_of_sameHandles FdTable.readv_sameHandles
  | lseek vfd offset whence => exact losesNone_of_sameHandles FdTable.lseek_sameHandles
  | fstat vfd => exact .refl
  | fstatat w fuel vfd path flag => exact .refl
  | flock vfd operation => exact losesNone_of_sameHandles FdTable.flock_sameHandles
  | opendir w fuel dirname hosted handle into =>
      cases done : p.tebakoOpendir w fuel dirname hosted handle into with
      | none =>
          simp only [processStep, done]
          exact .refl
      | some result =>
          simp only [processStep, done]
          exact tebakoOpendir_losesNone owned done
  | fdopendir w vfd into => exact tebakoFdopendir_losesNone
  | closedir dirp => exact tebakoClosedir_losesNone owned
  | scandir w fuel dirname wanted sel handle into =>
      cases done : p.tebakoScandir w fuel dirname wanted sel handle into with
      | none =>
          simp only [processStep, done]
          exact .refl
      | some result =>
          simp only [processStep, done]
          exact tebakoScandir_losesNone owned (allocates _ rfl) permitted done

theorem streamCall_losesNone {call : DirCall} (owned : p.Owned) : p.LosesNone (p.streamCall dirp call).2 := by
  cases call with
  | readdir memfsTable => exact losesNone_of_host HostFds.takesNone_refl rfl
  | telldir => exact .refl
  | seekdir loc => exact losesNone_of_host HostFds.takesNone_refl rfl
  | dirfd => exact .refl
  | closedir => exact tebakoClosedir_losesNone owned

/-- What a program may do; the descriptor of a stream it may close as well. -/
def PermitsCall (p : Process) : ProgramOp → Prop
  | .file op => p.Allocates op ∧ p.Permits op
  | .stream dirp .closedir => p.Permits (.closedir dirp)
  | .stream _ _ => True

theorem PermitsCall.disciplined {call : DirCall} (permitted : p.PermitsCall (.stream dirp call)) :
    p.Disciplined (.stream dirp call) := by
  cases call <;> exact permitted

/-- All numbers that the host holds for files of the memfs are in the table. -/
structure Accounted (p : Process) : Prop where
  owned : p.Owned
  known : ∀ vfd, ¬ p.Stray vfd

theorem Accounted.programStep {op : ProgramOp} (accounted : p.Accounted) (permitted : p.PermitsCall op) :
    (programStep op p).2.Accounted := by
  have owned := accounted.owned
  cases op with
  | file op =>
      obtain ⟨allocates, permitted⟩ := permitted
      exact ⟨(step_sound owned allocates permitted).1, fun vfd stray =>
        accounted.known vfd (processStep_losesNone owned allocates permitted vfd stray)⟩
  | stream dirp call =>
      exact ⟨streamCall_owned owned permitted.disciplined, fun vfd stray =>
        accounted.known vfd (streamCall_losesNone owned vfd stray)⟩

theorem Accounted.mem_iff (accounted : p.Accounted) :
    vfd ∈ p.fdTable ↔ ∃ isDir, p.host.files[vfd]? = some ⟨isDir, .placeholder⟩ := by
  constructor
  · intro there
    obtain ⟨fd, held⟩ := exists_of_mem there
    exact (accounted.owned.held vfd fd held).2
  · intro held
    by_contra absent
    exact accounted.known vfd ⟨held, absent⟩

end Process

/-! ## Giving the numbers back -/

namespace HostFds

/-- The host without the numbers that files of the memfs have. -/
def withoutMemfs (host : HostFds) : HostFds :=
  { host with files := host.files.filter fun _ file => file.holder ≠ .placeholder }

variable {host : HostFds} {numbers : List Int}

theorem foldl_close (vfd : Int) :
    (numbers.foldl HostFds.close host).files[vfd]? = if vfd ∈ numbers then none else host.files[vfd]? := by
  induction numbers generalizing host with
  | nil => rfl
  | cons number rest ih =>
      rw [List.foldl_cons, ih]
      by_cases later : vfd ∈ rest
      · simp [later]
      · by_cases here : vfd = number
        · simp [here, close]
        · rw [if_neg later, if_neg (by simp [here, later])]
          exact getElem?_erase_ne here

theorem foldl_close_rest :
    (numbers.foldl HostFds.close host).limit = host.limit ∧
      (numbers.foldl HostFds.close host).streams = host.streams := by
  induction numbers generalizing host with
  | nil => exact ⟨rfl, rfl⟩
  | cons number rest ih => exact ih

end HostFds

namespace Process

/-- Numbers of the table are closed, each of them once, and gone from it. -/
structure GivesBack (numbers : List Int) (p : Process) (calls : List HostCall) (after : Process) : Prop where
  calls : calls = numbers.map HostCall.close
  single : numbers.Nodup
  given : ∀ vfd ∈ numbers, vfd ∈ p.fdTable
  table : ∀ vfd : Int, after.fdTable[vfd]? = if vfd ∈ numbers then none else p.fdTable[vfd]?
  files : ∀ vfd : Int, after.host.files[vfd]? = if vfd ∈ numbers then none else p.host.files[vfd]?
  limit : after.host.limit = p.host.limit
  streams : after.host.streams = p.host.streams
  known : after.kfdTable = p.kfdTable

variable {p after last : Process} {numbers others : List Int} {calls more : List HostCall} {vfd : Int}

theorem GivesBack.refl : GivesBack [] p [] p where
  calls := rfl
  single := List.nodup_nil
  given := nofun
  table _ := by simp
  files _ := by simp
  limit := rfl
  streams := rfl
  known := rfl

theorem GivesBack.trans (first : GivesBack numbers p calls after) (second : GivesBack others after more last) :
    GivesBack (numbers ++ others) p (calls ++ more) last where
  calls := by rw [first.calls, second.calls, List.map_append]
  single := by
    refine List.nodup_append'.mpr ⟨first.single, second.single, fun vfd here there => ?_⟩
    obtain ⟨fd, held⟩ := exists_of_mem (second.given vfd there)
    rw [first.table, if_pos here] at held
    cases held
  given vfd listed := by
    rcases List.mem_append.mp listed with here | there
    · exact first.given vfd here
    · obtain ⟨fd, held⟩ := exists_of_mem (second.given vfd there)
      rw [first.table] at held
      split at held
      · cases held
      · exact mem_of_getElem? held
  table vfd := by
    rw [second.table, first.table]
    by_cases here : vfd ∈ numbers <;> by_cases there : vfd ∈ others <;> simp [here, there]
  files vfd := by
    rw [second.files, first.files]
    by_cases here : vfd ∈ numbers <;> by_cases there : vfd ∈ others <;> simp [here, there]
  limit := second.limit.trans first.limit
  streams := second.streams.trans first.streams
  known := second.known.trans first.known

theorem closeFd_givesBack (owned : p.Owned) :
    ∃ numbers, GivesBack numbers p (p.closeFd vfd).2.1 (p.closeFd vfd).2.2 := by
  rcases @closeFd_cases p vfd with ⟨_, result⟩ | ⟨fd, held, result⟩
  · rw [result]
    exact ⟨[], .refl⟩
  · rw [result, (owned.held vfd fd held).1]
    refine ⟨[vfd], rfl, List.nodup_singleton vfd, ?_, fun other => ?_, fun other => ?_, rfl, rfl, rfl⟩
    · intro other listed
      rw [List.mem_singleton.mp listed]
      exact mem_of_getElem? held
    · by_cases same : other = vfd
      · simp [same]
      · rw [if_neg (by simpa using same), getElem?_erase_ne same]
    · by_cases same : other = vfd
      · simp [same, HostFds.close]
      · rw [if_neg (by simpa using same)]
        exact getElem?_erase_ne same

theorem closeStreams_givesBack {entries : List (Nat × TebakoDs)} (owned : p.Owned) :
    (closeStreams entries p).2.Owned ∧
      ∃ numbers, GivesBack numbers p (closeStreams entries p).1 (closeStreams entries p).2 := by
  induction entries generalizing p with
  | nil => exact ⟨owned, [], .refl⟩
  | cons entry rest ih =>
      obtain ⟨numbers, closed⟩ := @closeFd_givesBack p entry.2.vfd owned
      have kept := (closeFd_sound owned (rfl : p.closeFd entry.2.vfd = _)).1
      obtain ⟨sound, others, later⟩ := ih kept
      exact ⟨sound, numbers ++ others, closed.trans later⟩

theorem handles_eq (owned : p.Owned) : (p.fdTable.toList.map fun entry => entry.2.handle) = p.fdTable.keys := by
  rw [← Std.ExtTreeMap.map_fst_toList_eq_keys]
  refine List.map_congr_left fun entry listed => ?_
  exact (owned.held entry.1 entry.2 (Std.ExtTreeMap.mem_toList_iff_getElem?_eq_some.mp listed)).1

theorem closeAllFds_givesBack (owned : p.Owned) :
    GivesBack p.fdTable.keys p p.closeAllFds.1 p.closeAllFds.2 where
  calls := by simp only [closeAllFds, handles_eq owned]
  single := Std.ExtTreeMap.nodup_keys
  given _ listed := Std.ExtTreeMap.mem_keys.mp listed
  table vfd := by
    simp only [closeAllFds, FdTable.closeAll]
    split
    · rfl
    · rename_i absent
      rw [Std.ExtTreeMap.mem_keys] at absent
      rw [Std.ExtTreeMap.getElem?_eq_none absent]
      rfl
  files vfd := by simp only [closeAllFds, handles_eq owned, HostFds.foldl_close]
  limit := HostFds.foldl_close_rest.1
  streams := HostFds.foldl_close_rest.2
  known := rfl

theorem closeAllStreams_givesBack (owned : p.Owned) :
    p.closeAllStreams.2.Owned ∧
      ∃ numbers, GivesBack numbers p p.closeAllStreams.1 p.closeAllStreams.2 := by
  obtain ⟨kept, numbers, closed⟩ := @closeStreams_givesBack p p.dsTable.toList owned
  refine ⟨⟨kept.held, fun dirp there => ?_⟩, numbers, { closed with }⟩
  simp [closeAllStreams] at there

/-- The release gives back each number that the host holds for the memfs, once,
and no other number; the streams of the host stay. -/
theorem Accounted.releaseResources (accounted : p.Accounted) :
    ∃ calls, calls.Perm (p.fdTable.keys.map HostCall.close) ∧
      p.releaseResources = (calls, ⟨∅, ∅, p.kfdTable, p.host.withoutMemfs⟩) := by
  obtain ⟨kept, numbers, streams⟩ := closeAllStreams_givesBack accounted.owned
  have closed := streams.trans (closeAllFds_givesBack kept)
  have all : ∀ vfd, vfd ∈ numbers ++ p.closeAllStreams.2.fdTable.keys ↔ vfd ∈ p.fdTable := by
    intro vfd
    refine ⟨closed.given vfd, fun there => ?_⟩
    by_contra absent
    have left := closed.table vfd
    rw [if_neg absent] at left
    obtain ⟨fd, held⟩ := exists_of_mem there
    cases left.trans held
  have same : (numbers ++ p.closeAllStreams.2.fdTable.keys).Perm p.fdTable.keys :=
    (List.perm_ext_iff_of_nodup closed.single Std.ExtTreeMap.nodup_keys).mpr fun vfd =>
      (all vfd).trans Std.ExtTreeMap.mem_keys.symm
  have files : p.closeAllStreams.2.closeAllFds.2.host.files = p.host.withoutMemfs.files := by
    apply Std.ExtTreeMap.ext_getElem?
    intro vfd
    rw [closed.files, HostFds.withoutMemfs, Std.ExtTreeMap.getElem?_filter']
    by_cases there : vfd ∈ p.fdTable
    · obtain ⟨isDir, held⟩ := accounted.mem_iff.mp there
      rw [if_pos ((all vfd).mpr there), held]
      rfl
    · rw [if_neg fun listed => there ((all vfd).mp listed)]
      cases held : p.host.files[vfd]? with
      | none => rfl
      | some file =>
          have plain : file.holder ≠ .placeholder := by
            intro memfs
            exact there (accounted.mem_iff.mpr ⟨file.isDir, held.trans (by rw [← memfs])⟩)
          simp [Option.filter, plain]
  have host : p.closeAllStreams.2.closeAllFds.2.host = p.host.withoutMemfs :=
    calc p.closeAllStreams.2.closeAllFds.2.host
      _ = ⟨p.closeAllStreams.2.closeAllFds.2.host.limit, p.closeAllStreams.2.closeAllFds.2.host.files,
            p.closeAllStreams.2.closeAllFds.2.host.streams⟩ := rfl
      _ = ⟨p.host.limit, p.host.withoutMemfs.files, p.host.streams⟩ := by
        rw [closed.limit, files, closed.streams]
      _ = p.host.withoutMemfs := rfl
  refine ⟨(numbers ++ p.closeAllStreams.2.fdTable.keys).map HostCall.close, same.map HostCall.close, ?_⟩
  refine Prod.ext closed.calls ?_
  calc p.releaseResources.2
    _ = ⟨∅, ∅, p.closeAllStreams.2.closeAllFds.2.kfdTable, p.closeAllStreams.2.closeAllFds.2.host⟩ := rfl
    _ = ⟨∅, ∅, p.kfdTable, p.host.withoutMemfs⟩ := by rw [closed.known, host]

theorem Accounted.withoutMemfs : Accounted ⟨∅, ∅, p.kfdTable, p.host.withoutMemfs⟩ where
  owned := ⟨fun vfd fd there => by simp at there, fun dirp there => by simp at there⟩
  known vfd stray := by
    obtain ⟨⟨isDir, held⟩, _⟩ := stray
    simp [HostFds.withoutMemfs, Option.filter_eq_some_iff] at held

end Process

/-! ## Runs -/

theorem loadMemfs_files (loader : Loader) (image : ImageSource) (g : Globals) :
    (loadMemfs loader image g).2.fdTable = g.fdTable ∧ (loadMemfs loader image g).2.dsTable = g.dsTable := by
  simp only [loadMemfs]
  split <;> exact ⟨rfl, rfl⟩

theorem mountMemfs_files (loader : Loader) (image : ImageSource) (parentInode : UInt32) (folder : CString)
    (g : Globals) :
    (mountMemfs loader image parentInode folder g).2.fdTable = g.fdTable ∧
      (mountMemfs loader image parentInode folder g).2.dsTable = g.dsTable := by
  have loaded := loadMemfs_files loader image g
  simp only [mountMemfs]
  split
  · exact loaded
  · exact loaded

namespace Session

variable {s : Session} {parsers : OptionParsers} {loader : Loader} {op : SessionOp}

/-- The tables of descriptors and of streams are empty after a release, and the
same after any other call that mounts. -/
theorem rootStep_files (op : RootOp) :
    (rootStep parsers loader op s.toGlobals).2.fdTable = (if s.Releases parsers op then ∅ else s.fdTable) ∧
      (rootStep parsers loader op s.toGlobals).2.dsTable = (if s.Releases parsers op then ∅ else s.dsTable) := by
  cases op with
  | mountRoot texts image =>
      have released : ∀ options, (releaseRoot { s.toGlobals with options := options }).fdTable =
            (if (0 : UInt32) ∈ s.memfsTable then ∅ else s.fdTable) ∧
          (releaseRoot { s.toGlobals with options := options }).dsTable =
            (if (0 : UInt32) ∈ s.memfsTable then ∅ else s.dsTable) := by
        intro options
        unfold releaseRoot
        by_cases mounted : (0 : UInt32) ∈ s.memfsTable
        · rw [if_pos mounted, if_pos mounted, if_pos mounted]
          exact ⟨rfl, rfl⟩
        · rw [if_neg mounted, if_neg mounted, if_neg mounted]
          exact ⟨rfl, rfl⟩
      rcases accepted : setOptions (texts.setters parsers) s.options with ⟨ok, options⟩
      cases ok with
      | false =>
          have keeps : ¬ s.Releases parsers (.mountRoot texts image) := by simp [Releases, accepted]
          rw [if_neg keeps, if_neg keeps]
          simp only [rootStep, mountRootMemfs, accepted, and_self]
      | true =>
          have releases : s.Releases parsers (.mountRoot texts image) ↔ (0 : UInt32) ∈ s.memfsTable := by
            simp [Releases, accepted]
          simp only [rootStep, mountRootMemfs, accepted, releases]
          have tables := released options
          split <;> exact tables
  | mountMemfs image parentInode folder =>
      simp only [Releases, ↓reduceIte]
      exact mountMemfs_files loader image parentInode folder s.toGlobals
  | mountPath parentInode folder target => exact ⟨rfl, rfl⟩
  | unmountRoot => exact ⟨rfl, rfl⟩

theorem rootCall_process (op : RootOp) :
    (s.rootCall parsers loader op).1 = (if s.Releases parsers op then s.process.releaseResources.1 else []) ∧
      (s.rootCall parsers loader op).2.process =
        if s.Releases parsers op then s.process.releaseResources.2 else s.process := by
  obtain ⟨files, streams⟩ := @rootStep_files s parsers loader op
  unfold rootCall
  split
  · rename_i releases
    rw [if_pos releases] at files streams
    refine ⟨rfl, ?_⟩
    simp only [process, files, streams]
    rfl
  · rename_i keeps
    rw [if_neg keeps] at files streams
    refine ⟨rfl, ?_⟩
    simp only [process, files, streams]

def Allowed (s : Session) : SessionOp → Prop
  | .root _ => True
  | .program op => s.process.PermitsCall op

theorem accounted_step (accounted : s.process.Accounted) (allowed : s.Allowed op) :
    (sessionStep parsers loader op s).2.process.Accounted := by
  cases op with
  | program op => exact accounted.programStep allowed
  | root op =>
      have same := (@rootCall_process s parsers loader op).2
      change (s.rootCall parsers loader op).2.process.Accounted
      rw [same]
      split
      · obtain ⟨calls, _, released⟩ := accounted.releaseResources
        rw [released]
        exact .withoutMemfs
      · exact accounted

end Session

/-- Over every run in which images are mounted and unmounted while the program
opens and closes files, the numbers that the host holds for the memfs are those of
the table. A release gives back each of them once, and nothing else: the host is
left with what the program has opened there. -/
theorem numbers_given_back (parsers : OptionParsers) (loader : Loader) (start s : Session)
    (noFds : start.fdTable = ∅) (noStreams : start.dsTable = ∅)
    (clean : ∀ (vfd : Int) (file : HostFd), start.host.files[vfd]? = some file → file.holder ≠ .placeholder)
    (reached : Machine.Reaches (sessionStep parsers loader) Session.Allowed start s) :
    (∀ vfd, vfd ∈ s.fdTable ↔ ∃ isDir, s.host.files[vfd]? = some ⟨isDir, .placeholder⟩) ∧
      ∀ op,
        (s.Releases parsers op → (s.rootCall parsers loader op).1.Perm (s.fdTable.keys.map HostCall.close) ∧
          (s.rootCall parsers loader op).2.process = ⟨∅, ∅, s.kfdTable, s.host.withoutMemfs⟩) ∧
        (¬ s.Releases parsers op → (s.rootCall parsers loader op).1 = [] ∧
          (s.rootCall parsers loader op).2.process = s.process) := by
  have accounted : s.process.Accounted := by
    refine reached.invariant ⟨⟨?_, ?_⟩, ?_⟩ fun _ _ accounted allowed =>
      Session.accounted_step accounted allowed
    · intro vfd fd there
      simp [Session.process, noFds] at there
    · intro dirp there
      simp [Session.process, noStreams] at there
    · intro vfd stray
      obtain ⟨⟨isDir, held⟩, _⟩ := stray
      exact clean vfd _ held rfl
  refine ⟨fun vfd => accounted.mem_iff, fun op => ?_⟩
  obtain ⟨calls, same⟩ := @Session.rootCall_process s parsers loader op
  constructor
  · intro releases
    obtain ⟨closed, each, released⟩ := accounted.releaseResources
    rw [if_pos releases, released] at calls same
    exact ⟨calls ▸ each, same⟩
  · intro keeps
    rw [if_neg keeps] at calls same
    exact ⟨calls, same⟩

def freshSession : Session where
  toGlobals := .initial
  kfdTable := ∅
  host := freshProcess.host

/-- A root image is mounted, and a file of the memfs and one of the host are opened. -/
def openBoth : List SessionOp :=
  [.root (.mountRoot {} noImage), .program (.file openOneFile),
    .program (.file (.openFile oneFileWorld 9 (some (cStr ['/', 'e'])) 0 none (some false) 7))]

def bothOpen : Session := Machine.after (sessionStep noParsers emptyLoader) openBoth freshSession

theorem both_open_reached :
    Machine.Reaches (sessionStep noParsers emptyLoader) Session.Allowed freshSession bothOpen := by
  have mounted : (freshSession.rootCall noParsers emptyLoader (.mountRoot {} noImage)).2.process = freshProcess := by
    rw [(Session.rootCall_process _).2, if_neg (by decide +kernel)]
    rfl
  have first : (freshSession.rootCall noParsers emptyLoader (.mountRoot {} noImage)).2.process.PermitsCall
      (.file openOneFile) := by
    rw [mounted]
    exact openOneFile_permitted
  refine Machine.Reaches.after .start ⟨trivial, first, ⟨nofun, fun full => ?_⟩, trivial⟩
  cases full

theorem one_number_given_back :
    (bothOpen.rootCall noParsers emptyLoader .unmountRoot).1 = [.close 1] ∧
      (bothOpen.rootCall noParsers emptyLoader .unmountRoot).2.process =
        ⟨∅, ∅, bothOpen.kfdTable, bothOpen.host.withoutMemfs⟩ ∧
      bothOpen.host.withoutMemfs.files.keys = [0, 2] := by
  have clean : ∀ (vfd : Int) (file : HostFd), freshSession.host.files[vfd]? = some file →
      file.holder ≠ .placeholder := by
    intro vfd file held
    rcases getElem?_insert_iff.mp held with ⟨_, rfl⟩ | ⟨_, other⟩
    · nofun
    · simp at other
  obtain ⟨calls, left⟩ := ((numbers_given_back noParsers emptyLoader freshSession bothOpen rfl rfl clean
    both_open_reached).2 .unmountRoot).1 trivial
  have keys : bothOpen.fdTable.keys = [1] := by decide +kernel
  rw [keys] at calls
  exact ⟨List.perm_singleton.mp calls, left, by decide +kernel⟩

end Tebako
