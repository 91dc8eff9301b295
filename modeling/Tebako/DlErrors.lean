import Tebako.DlCtl

namespace Tebako

open Data Data.Machine

/-! Messages of the loader: `tebako_dlerror` and the two places where an error is
kept, the stash of the library and the host's own loader. -/

/-- `: cannot open shared object file: ` -/
def cannotOpenText : Str :=
  [':', ' ', 'c', 'a', 'n', 'n', 'o', 't', ' ', 'o', 'p', 'e', 'n', ' ', 's', 'h', 'a', 'r', 'e', 'd', ' ',
    'o', 'b', 'j', 'e', 'c', 't', ' ', 'f', 'i', 'l', 'e', ':', ' ']

/-- The characters of `tebako_dlerror_msg` before its terminating NUL. -/
def tebakoDlerrorMsgLength : Nat := tebakoPathLength + 1024 - 1

/-- The directory of the copies has a name. -/
structure LoaderEnv where
  dl : DlEnv
  directory : dl.dlTmpdir.chars ≠ []
  strerror : Errno → Str

/-- `native` is the most recent error of the host's loader, which its `dlerror` returns
and clears. -/
structure LoaderState where
  calls : DlState
  native : Option Str

def LoaderState.initial (disk : Disk) : LoaderState := ⟨.initial disk, none⟩

/-- What the host's `dlopen` fails with, if a call comes to it and it fails, or a
`tebako_dlerror`. -/
inductive LoaderOp where
  | call (op : DlOp) (native : Option Str)
  | dlerror

inductive LoaderAnswer where
  | called (answer : Option DlAnswer)
  | message (text : Option Str)

variable (env : LoaderEnv)

/-- The text made of an error in the stash; what does not fit is cut off. -/
def stashText (failed : Errno × CString) : Str :=
  (failed.2.chars ++ cannotOpenText ++ env.strerror failed.1).take tebakoDlerrorMsgLength

def tebakoDlerror (s : LoaderState) : Option Str × LoaderState :=
  (match s.calls.dlerror with
    | some failed => some (stashText env failed)
    | none => s.native, ⟨{ s.calls with dlerror := none }, none⟩)

def loaderStep : Machine LoaderState LoaderOp LoaderAnswer
  | .call op native, s =>
      let (answer, calls) := dlStep env.dl op s.calls
      (.called answer, ⟨calls,
        match answer, native with
        | some (.dlopen _), some text => some text
        | _, _ => s.native⟩)
  | .dlerror, s =>
      let (text, s) := tebakoDlerror env s
      (.message text, s)

/-! ## Failures -/

inductive LoaderSide where
  | memfs | native
deriving Repr, DecidableEq

/-- A call that has failed, and its message. -/
structure LoadFailure where
  side : LoaderSide
  text : Str
deriving Repr, DecidableEq

/-- What stands in the way of a copy: there is no place for it, there is no such
file, or reading or writing fails. -/
def DlState.obstacle (s : DlState) (dl : DlEnv) (fuel : Nat) (host : HostAnswers) (path : CString) : Errno :=
  if host.makesDirectories = false then .ENOMEM
  else
    match s.openInput dl fuel path host.dup with
    | some (none, _) => .ENOENT
    | _ => Errno.EIO

/-- What is to be reported of a call that leads into the memfs and answers NULL. -/
def DlOp.report (s : DlState) (dl : DlEnv) : DlOp → Option (Errno × CString)
  | .dlopen fuel host path =>
      (path.bind (toTebakoPath s.globals.cwd)).map fun p => (s.obstacle dl fuel host p, p)
  | .dlmap2file fuel host path =>
      (path.bind (toTebakoPath s.globals.cwd)).map fun p => (s.obstacle dl fuel host p, p)
  | .mounting _ => none

/-- A call fails on the side that it came to. `tebako_dlmap2file` answers NULL for a
path of the host too, for which it has nothing to do. -/
def LoaderOp.failure (s : LoaderState) : LoaderOp → Option LoadFailure
  | .call op native =>
      match (dlStep env.dl op s.calls).1 with
      | some (.dlopen _) => native.map (⟨.native, ·⟩)
      | some .null => (op.report s.calls env.dl).map fun failed => ⟨.memfs, stashText env failed⟩
      | _ => none
  | .dlerror => none

/-- The failures since the last `tebako_dlerror`, the latest one first. -/
def failuresSince : List LoaderOp → LoaderState → List LoadFailure → List LoadFailure
  | [], _, past => past
  | op :: rest, s, past =>
      failuresSince rest (loaderStep env op s).2
        (match op with
          | .dlerror => []
          | op => (op.failure env s).toList ++ past)

/-- The latest failure is one of the host's loader, and an older one in the memfs has
another message. -/
def Masked : List LoadFailure → Prop
  | ⟨.native, text⟩ :: older =>
      ∃ first, older.find? (·.side = .memfs) = some first ∧ first.text ≠ text
  | _ => False

/-- Each side keeps the latest failure of its own. -/
structure KeepsSides (s : LoaderState) (past : List LoadFailure) : Prop where
  memfs : s.calls.dlerror.map (stashText env) = (past.find? (·.side = .memfs)).map (·.text)
  native : s.native = (past.find? (·.side = .native)).map (·.text)

section Calls

variable {env} {s after : DlState} {path p name : CString} {fuel : Nat} {host : HostAnswers}
variable {dl : DlEnv} {op : DlOp} {native : Option Str} {past : List LoadFailure}
variable {answer : Option DlAnswer} {state : LoaderState}

theorem join_nonempty {left : CString} (nonempty : left.chars ≠ []) (right : CString) :
    (left.join right).chars ≠ [] := by
  rw [CString.join_chars, LexicalPath.append]
  intro empty
  split at empty
  · rename_i absolute
    rw [empty] at absolute
    exact absurd absolute (by decide)
  · split at empty
    · exact nonempty (List.append_eq_nil_iff.mp empty).1
    · exact nonempty (List.append_eq_nil_iff.mp empty).1

/-- The table of copies holds names. -/
def NamesCopies (s : DlState) : Prop :=
  ∀ (path : Str) (held : CString), s.dltable[path]? = some held → held.chars ≠ []

/-- The call names a copy and leaves the stash alone, or it names none, and puts what has
stood in its way there. -/
def Reports (dl : DlEnv) (fuel : Nat) (host : HostAnswers) (path : CString) (s : DlState)
    (mapped : CString × DlState) : Prop :=
  mapped.1.chars ≠ [] ∧ mapped.2.dlerror = s.dlerror ∨
    mapped.1.chars = [] ∧ mapped.2.dlerror = some (s.obstacle dl fuel host path, path)

/-- There is such a file: only reading and writing can fail. -/
theorem extract_reports {input : DlInput} {table : FdTable} (directory : dl.dlTmpdir.chars ≠ [])
    (failing : s.obstacle dl fuel host path = Errno.EIO)
    (done : s.extract fuel host (mapName dl.dlTmpdir path) path input table = some (name, after)) :
    Reports dl fuel host path s (name, after) := by
  rw [Reports, failing]
  simp only [DlState.extract] at done
  split at done
  · cases done
    exact .inr ⟨rfl, rfl⟩
  · split at done
    · cases done
      exact .inr ⟨rfl, rfl⟩
    · obtain ⟨c, _, same⟩ := Option.map_eq_some_iff.mp done
      rw [← same, DlState.finish]
      split
      · exact .inl ⟨join_nonempty directory _, rfl⟩
      · exact .inr ⟨rfl, rfl⟩

theorem map2file_reports (directory : dl.dlTmpdir.chars ≠ []) (names : NamesCopies s)
    (done : s.map2file dl fuel host path = some (name, after)) : Reports dl fuel host path s (name, after) := by
  cases cached : s.dltable[path.chars]? with
  | some held =>
      rw [map2file_of_cached cached] at done
      cases done
      exact .inl ⟨names _ _ cached, rfl⟩
  | none =>
      simp only [DlState.map2file, cached] at done
      split at done
      · rename_i placeless
        cases done
        exact .inr ⟨rfl, by rw [DlState.obstacle, if_pos placeless]; rfl⟩
      · rename_i place
        cases opened : s.openInput dl fuel path host.dup with
        | none =>
            rw [opened] at done
            cases done
        | some result =>
            obtain ⟨found, table⟩ := result
            rw [opened] at done
            cases found with
            | none =>
                cases done
                refine .inr ⟨rfl, ?_⟩
                simp only [DlState.obstacle, if_neg place, opened]
                rfl
            | some input =>
                refine extract_reports directory ?_ done
                simp only [DlState.obstacle, if_neg place, opened]

theorem map2file_names (directory : dl.dlTmpdir.chars ≠ []) (names : NamesCopies s)
    (done : s.map2file dl fuel host path = some (name, after)) : NamesCopies after := by
  cases cached : s.dltable[path.chars]? with
  | some held =>
      rw [map2file_of_cached cached] at done
      cases done
      exact names
  | none =>
      cases maps_of_map2file cached done with
      | refused table errno => exact names
      | @copied _ _ _ _ c opened sized ran =>
          simp only [DlState.finish]
          split
          · intro other held found
            rcases OrderedMap.getElem?_insert_iff.mp found with ⟨_, rfl⟩ | ⟨_, kept⟩
            · exact join_nonempty directory _
            · exact names other held kept
          · exact names

/-- NULL is answered with a report in the stash, and any other answer leaves the stash
alone. -/
def StashedBy (dl : DlEnv) (op : DlOp) (s : DlState) (answer : Option DlAnswer) (after : DlState) : Prop :=
  (∃ failed, answer = some .null ∧ op.report s dl = some failed ∧ after.dlerror = some failed) ∨
    after.dlerror = s.dlerror ∧ (answer = some .null → op.report s dl = none)

theorem mapped_stashed {answer : CString × DlState → DlAnswer} {result : Option DlAnswer}
    (directory : dl.dlTmpdir.chars ≠ []) (names : NamesCopies s)
    (report : op.report s dl = some (s.obstacle dl fuel host p, p))
    (null : ∀ name after, answer (name, after) = .null ↔ name.chars = [])
    (done : finished s ((s.map2file dl fuel host p).map fun mapped => (answer mapped, mapped.2)) =
      (result, after)) : StashedBy dl op s result after := by
  cases mapped : s.map2file dl fuel host p with
  | none =>
      rw [mapped] at done
      cases done
      exact .inr ⟨rfl, fun other => by cases other⟩
  | some found =>
      obtain ⟨name, next⟩ := found
      rw [mapped] at done
      cases done
      rcases map2file_reports directory names mapped with ⟨named, same⟩ | ⟨unnamed, recorded⟩
      · exact .inr ⟨same, fun other => absurd ((null name next).mp (Option.some.inj other)) named⟩
      · exact .inl ⟨_, congrArg some ((null name next).mpr unnamed), report, recorded⟩

theorem dlStep_stashed (directory : dl.dlTmpdir.chars ≠ []) (names : NamesCopies s)
    (done : dlStep dl op s = (answer, after)) : StashedBy dl op s answer after := by
  cases op with
  | mounting op =>
      cases done
      exact .inr ⟨rfl, fun _ => rfl⟩
  | dlopen fuel host path =>
      cases path with
      | none =>
          cases done
          exact .inr ⟨rfl, fun _ => rfl⟩
      | some path =>
          cases known : toTebakoPath s.globals.cwd path with
          | none =>
              simp only [dlStep, DlState.tebakoDlopen, known, finished] at done
              cases done
              exact .inr ⟨rfl, fun _ => by simp [DlOp.report, known]⟩
          | some p =>
              simp only [dlStep, DlState.tebakoDlopen, known] at done
              exact mapped_stashed directory names (by simp [DlOp.report, known]) (by simp) done
  | dlmap2file fuel host path =>
      cases path with
      | none =>
          cases done
          exact .inr ⟨rfl, fun _ => rfl⟩
      | some path =>
          cases known : toTebakoPath s.globals.cwd path with
          | none =>
              simp only [dlStep, DlState.tebakoDlmap2file, known, finished] at done
              cases done
              exact .inr ⟨rfl, fun _ => by simp [DlOp.report, known]⟩
          | some p =>
              simp only [dlStep, DlState.tebakoDlmap2file, known] at done
              exact mapped_stashed directory names (by simp [DlOp.report, known]) (by simp) done

theorem mapped_names {answer : CString × DlState → DlAnswer} {result : Option DlAnswer}
    (directory : dl.dlTmpdir.chars ≠ []) (names : NamesCopies s)
    (done : finished s ((s.map2file dl fuel host p).map fun mapped => (answer mapped, mapped.2)) =
      (result, after)) : NamesCopies after := by
  cases mapped : s.map2file dl fuel host p with
  | none =>
      rw [mapped] at done
      cases done
      exact names
  | some found =>
      rw [mapped] at done
      cases done
      exact map2file_names directory names mapped

theorem dlStep_names (directory : dl.dlTmpdir.chars ≠ []) (names : NamesCopies s)
    (done : dlStep dl op s = (answer, after)) : NamesCopies after := by
  cases op with
  | mounting op =>
      cases done
      exact names
  | dlopen fuel host path =>
      cases path with
      | none =>
          cases done
          exact names
      | some path =>
          simp only [dlStep, DlState.tebakoDlopen] at done
          split at done
          · cases done
            exact names
          · exact mapped_names directory names done
  | dlmap2file fuel host path =>
      cases path with
      | none =>
          cases done
          exact names
      | some path =>
          simp only [dlStep, DlState.tebakoDlmap2file] at done
          split at done
          · cases done
            exact names
          · exact mapped_names directory names done

theorem keepsSides_memfs {failed : Errno × CString} (recorded : after.dlerror = some failed)
    (keeps : KeepsSides env state past) :
    KeepsSides env ⟨after, state.native⟩ (⟨.memfs, stashText env failed⟩ :: past) where
  memfs := by
    rw [recorded]
    rfl
  native := keeps.native

theorem keepsSides_native (same : after.dlerror = state.calls.dlerror) (keeps : KeepsSides env state past)
    (text : Str) : KeepsSides env ⟨after, some text⟩ (⟨.native, text⟩ :: past) where
  memfs := by
    rw [same]
    exact keeps.memfs
  native := rfl

theorem keepsSides_same (same : after.dlerror = state.calls.dlerror) (keeps : KeepsSides env state past) :
    KeepsSides env ⟨after, state.native⟩ past where
  memfs := by
    rw [same]
    exact keeps.memfs
  native := keeps.native

theorem call_keeps (op : DlOp) (native : Option Str) (names : NamesCopies state.calls)
    (keeps : KeepsSides env state past) :
    KeepsSides env (loaderStep env (.call op native) state).2
      (((LoaderOp.call op native).failure env state).toList ++ past) := by
  cases done : dlStep env.dl op state.calls with
  | mk answer after =>
      simp only [loaderStep, LoaderOp.failure, done]
      rcases dlStep_stashed env.directory names done with ⟨failed, rfl, report, recorded⟩ | ⟨same, quiet⟩
      · simp only [report, Option.map_some]
        exact keepsSides_memfs recorded keeps
      · cases answer with
        | none => exact keepsSides_same same keeps
        | some answer =>
            cases answer with
            | mounted ret => exact keepsSides_same same keeps
            | mapped name => exact keepsSides_same same keeps
            | dlopen path =>
                cases native with
                | none => exact keepsSides_same same keeps
                | some text => exact keepsSides_native same keeps text
            | null =>
                simp only [quiet rfl, Option.map_none]
                exact keepsSides_same same keeps

theorem run_keeps {ops : List LoaderOp} (names : NamesCopies state.calls) (keeps : KeepsSides env state past) :
    KeepsSides env (Machine.after (loaderStep env) ops state) (failuresSince env ops state past) := by
  induction ops generalizing state past with
  | nil => exact keeps
  | cons op rest ih =>
      cases op with
      | call op native => exact ih (dlStep_names env.directory names rfl) (call_keeps op native names keeps)
      | dlerror => exact ih names ⟨rfl, rfl⟩

theorem namesCopies_initial {disk : Disk} : NamesCopies (LoaderState.initial disk).calls := by
  intro path held found
  rw [show (LoaderState.initial disk).calls.dltable = ∅ from rfl, Std.ExtTreeMap.getElem?_empty] at found
  cases found

theorem dlerror_latest_of_keeps (keeps : KeepsSides env state past) :
    (tebakoDlerror env state).1 = past.head?.map (·.text) ↔ ¬ Masked past := by
  obtain ⟨memfs, native⟩ := keeps
  have returned : (tebakoDlerror env state).1 =
      ((past.find? (·.side = .memfs)).map (·.text)).or ((past.find? (·.side = .native)).map (·.text)) := by
    rw [← memfs, ← native, tebakoDlerror]
    cases state.calls.dlerror <;> rfl
  rw [returned]
  cases past with
  | nil => simp [Masked]
  | cons latest older =>
      obtain ⟨side, text⟩ := latest
      cases side with
      | memfs => simp [Masked]
      | native =>
          cases found : older.find? (·.side = .memfs) with
          | none => simp [Masked, found]
          | some first => simp [Masked, found]

end Calls

/-- After any run of calls `tebako_dlerror` returns the message of the latest failure
exactly when no failure of the host's loader comes after one in the memfs that has
another message. -/
theorem dlerror_latest_iff (env : LoaderEnv) (disk : Disk) (ops : List LoaderOp) :
    (tebakoDlerror env (after (loaderStep env) ops (.initial disk))).1 =
        (failuresSince env ops (.initial disk) []).head?.map (·.text) ↔
      ¬ Masked (failuresSince env ops (.initial disk) []) :=
  dlerror_latest_of_keeps (run_keeps namesCopies_initial ⟨rfl, rfl⟩)

/-- Nothing is mounted, and nothing is on the host. -/
def bareEnv : LoaderEnv where
  dl := ⟨noParsers, emptyLoader, cStr ['/', 't'], fun _ _ => .error .ENOENT⟩
  directory := by decide
  strerror _ := ['N', 'o', ' ', 's', 'u', 'c', 'h', ' ', 'f', 'i', 'l', 'e']

def bareHost : HostAnswers := ⟨true, 5, true, fun _ => .all⟩

/-- A library that is not in the memfs, then one that is not on the host. -/
def twoFailures : List LoaderOp :=
  [.call (.dlopen 9 bareHost (some (belowMountPoint ['g']))) none,
    .call (.dlopen 9 bareHost (some (cStr ['/', 'x']))) (some ['x'])]

/-- The message is the first one's. -/
theorem older_failure_reported : ¬ ∀ env disk ops,
    (tebakoDlerror env (after (loaderStep env) ops (.initial disk))).1 =
      (failuresSince env ops (.initial disk) []).head?.map (·.text) := by
  intro always
  have past : failuresSince bareEnv twoFailures (.initial ∅) [] =
      [⟨.native, ['x']⟩, ⟨.memfs, stashText bareEnv (.ENOENT, belowMountPoint ['g'])⟩] := by
    decide +kernel
  have keeps := @run_keeps bareEnv [] (.initial ∅) twoFailures namesCopies_initial ⟨rfl, rfl⟩
  have latest := (dlerror_latest_of_keeps keeps).mp (always bareEnv ∅ twoFailures)
  rw [past] at latest
  exact latest ⟨_, rfl, by decide +kernel⟩

end Tebako
