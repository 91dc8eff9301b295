import Tebako.Data.Machine
import Tebako.DirCtl
import Tebako.PathClass

namespace Tebako

open Data Data.LexicalPath

/-! The current directory over sequences of `tebako_chdir`. -/

/-- Empty, or the normal form of a directory at the mount point or below it. -/
def Cwd.WellPlaced (cwd : Cwd) : Prop :=
  ∃ p, cwd = some p ∧ (p.chars = [] ∨
    p.normal = p ∧ p.chars.getLast? = some '/' ∧ Below tebakoMountPoint p.chars)

/-- A directory of the host, as its `getcwd` spells it: not the root directory,
and not like a path of the memfs. -/
def HostDir (path : CString) : Prop :=
  isAbsolute path.chars = true ∧ lastSegment path.chars ≠ [] ∧ isTebakoPath path = false

/-- Relative paths are told apart as they are when written out in full behind
the directory that `tebako_getcwd` returns. -/
def NamesBase (dirs : WorkingDir) : Prop :=
  ∀ buf size dir, tebakoGetcwd dirs.cwd dirs.hostCwd buf size = .ok dir →
    ∀ path, isAbsolute path.chars = false →
      (toTebakoPath dirs.cwd path).isSome = (toTebakoPath dirs.cwd (dir.join path)).isSome

structure ChdirOp where
  w : World
  hostChdir : CString → Except Errno CString
  fuel : Nat
  path : Option CString

def chdirStep : Machine WorkingDir ChdirOp (Option CallAnswer)
  | op, dirs =>
      match tebakoChdir op.w op.hostChdir op.fuel op.path dirs with
      | none => (none, dirs)
      | some (answer, dirs) => (some answer, dirs)

/-- A directory found in the memfs is one by its name, too, and one of the host
is not taken for it. -/
def ChdirOp.Permitted (dirs : WorkingDir) (op : ChdirOp) : Prop :=
  ∀ path, op.path = some path →
    match toTebakoPath dirs.cwd path with
    | some p => ∀ st, tebakoStat { op.w with cwd := dirs.cwd } op.fuel p = some (.ok (.inode st)) →
        st.isDir = true → Below tebakoMountPoint p.normal.chars
    | none => ∀ there, op.hostChdir path = .ok there → HostDir there

variable {dirs : WorkingDir} {path p dir host : CString} {buf : Bool} {size : Nat}

theorem reportCwd_ok {cwd : CString} (reported : reportCwd cwd buf size = .ok dir) : dir = cwd := by
  unfold reportCwd at reported
  split at reported
  · exact (Except.ok.inj reported).symm
  · split at reported
    · cases reported
    · split at reported
      · cases reported
      · exact (Except.ok.inj reported).symm

/-! ## The decision -/

/-- The mount point has one name only, so that a path is told by what comes
before another separator. -/
theorem isTebakoPath_of_continued {whole : CString} {rest : Str} (absolute : isAbsolute host.chars = true)
    (continued : whole.chars = host.chars ++ '/' :: rest) : isTebakoPath whole = isTebakoPath host := by
  rw [Bool.eq_iff_iff, isTebakoPath_iff, isTebakoPath_iff, continued]
  constructor
  · intro known
    obtain ⟨more, same⟩ := known
    rcases List.append_eq_append_iff.mp same with ⟨middle, front, back⟩ | ⟨middle, front, back⟩
    · cases middle with
      | nil => exact ⟨[], by simpa using front.symm⟩
      | cons char middle =>
          have char_eq : char = '/' := (List.cons.inj back).1.symm
          subst char_eq
          cases spelled : host.chars with
          | nil => rw [spelled] at absolute; cases absolute
          | cons first name =>
              rw [spelled] at front
              have inside : tebakoMountPointName = name ++ '/' :: middle := (List.cons.inj front).2
              exact absurd mountPoint_clean (by simp [inside])
    · exact ⟨middle, front⟩
  · intro known
    obtain ⟨more, same⟩ := known
    exact ⟨more ++ '/' :: rest, by rw [same, List.append_assoc]⟩

theorem isTebakoPath_join_of_hostDir (hostDir : HostDir host)
    (relative : isAbsolute path.chars = false) : isTebakoPath (host.join path) = false := by
  obtain ⟨absolute, named, apart⟩ := hostDir
  have joined : (host.join path).chars = host.chars ++ '/' :: path.chars := by
    simp [append, relative, named]
  rw [isTebakoPath_of_continued absolute joined, apart]

theorem isTebakoPath_cut (below : Below tebakoMountPoint p.chars) :
    ∃ rest, (tebakoPathAssign p.chars).chars = tebakoMountPoint ++ rest := by
  obtain ⟨rest, same⟩ := isTebakoPath_iff.mp (isTebakoPath_of_below below)
  refine ⟨rest.take (tebakoPathLength - tebakoMountPointLength), ?_⟩
  have whole : (cStr p.chars).chars = tebakoMountPoint ++ rest := by rw [cStr_chars, same]
  change (cStr p.chars).chars.take tebakoPathLength = _
  rw [whole, List.take_append, tebakoMountPoint_length]
  rfl

theorem isTebakoPath_join (known : ∃ rest, dir.chars = tebakoMountPoint ++ rest)
    (relative : isAbsolute path.chars = false) : isTebakoPath (dir.join path) = true := by
  obtain ⟨rest, same⟩ := known
  rw [isTebakoPath_iff, CString.join_chars, append, if_neg (by simp [relative]), same]
  split
  · exact ⟨_, List.append_assoc _ _ _⟩
  · exact ⟨_, List.append_assoc _ _ _⟩

theorem namesBase_of_placed (placed : dirs.cwd.WellPlaced) (hosted : HostDir dirs.hostCwd) :
    NamesBase dirs := by
  intro buf size dir reported path relative
  obtain ⟨p, cwd, spelled⟩ := placed
  have unknown := isTebakoPath_of_relative relative
  rcases spelled with empty | ⟨_, _, below⟩
  · have outside : dirs.cwd.isIn = false := by simp [Cwd.isIn, cwd, empty]
    have nothing : dirs.cwd.get.chars.length = 0 := by
      simp [Cwd.get, cwd, empty, tebakoPathAssign, cStr]
    rw [tebakoGetcwd, if_neg (by simp [nothing])] at reported
    obtain rfl := reportCwd_ok reported
    simp [toTebakoPath, outside, unknown, isTebakoPath_join_of_hostDir hosted relative]
  · obtain ⟨rest, cut⟩ := isTebakoPath_cut below
    have inside : dirs.cwd.isIn = true := by
      have nonempty := ne_nil_of_absolute (isAbsolute_of_below below)
      simp [Cwd.isIn, cwd, nonempty]
    have get : dirs.cwd.get = tebakoPathAssign p.chars := by rw [cwd, Cwd.get]
    rw [tebakoGetcwd, get, if_pos (by simp [cut, tebakoMountPoint])] at reported
    obtain rfl := reportCwd_ok reported
    have full := isTebakoPath_join ⟨rest, cut⟩ relative
    have here : (toTebakoPath dirs.cwd path).isSome = true := by
      rw [toTebakoPath, if_pos ⟨inside, by simp [relative]⟩, cwd]
      rfl
    rw [here, toTebakoPath_of_isTebakoPath full, Option.isSome_some]

/-! ## One change of directory -/

theorem wellPlaced_set (below : Below tebakoMountPoint p.normal.chars) (old : CString) :
    Cwd.WellPlaced (Cwd.set (some old) (some p)) := by
  have absolute : isAbsolute p.chars = true := by
    have rooted := isAbsolute_of_below below
    rwa [CString.normal_chars, isAbsolute_lexicallyNormal] at rooted
  refine ⟨p.withSeparator.normal, rfl, .inr ⟨?_, ?_, ?_⟩⟩
  · exact CString.ext (lexicallyNormal_lexicallyNormal _)
  · exact getLast?_lexicallyNormal_separator absolute
  · exact below_separator mountPoint_nonempty mountPoint_clean absolute below

/-- What one call does with the two directories. -/
inductive Changes (op : ChdirOp) (dirs : WorkingDir) : Option CallAnswer × WorkingDir → Prop where
  | refused {answer : Option CallAnswer} (other : answer ≠ some .done) : Changes op dirs (answer, dirs)
  | inside {path p : CString} {st : FileStat} (given : op.path = some path)
      (known : toTebakoPath dirs.cwd path = some p)
      (found : tebakoStat { op.w with cwd := dirs.cwd } op.fuel p = some (.ok (.inode st)))
      (directory : st.isDir = true) :
      Changes op dirs (some .done, { dirs with cwd := dirs.cwd.set (some p) })
  | host {path there : CString} (given : op.path = some path)
      (unknown : toTebakoPath dirs.cwd path = none) (moved : op.hostChdir path = .ok there) :
      Changes op dirs (some .done, ⟨dirs.cwd.set none, there⟩)

theorem chdirStep_changes (op : ChdirOp) (dirs : WorkingDir) : Changes op dirs (chdirStep op dirs) := by
  cases given : op.path with
  | none => simpa [chdirStep, tebakoChdir, given] using .refused (by simp)
  | some path =>
      cases known : toTebakoPath dirs.cwd path with
      | some p =>
          cases stat : tebakoStat { op.w with cwd := dirs.cwd } op.fuel p with
          | none => simpa [chdirStep, tebakoChdir, given, known, stat] using .refused (by simp)
          | some found =>
              rcases found with errno | (st | ⟨lnk, st⟩ | ⟨lnk, st⟩ | ⟨lnk, st⟩)
              · simpa [chdirStep, tebakoChdir, given, known, stat] using .refused (by simp)
              · cases directory : st.isDir with
                | false =>
                    simpa [chdirStep, tebakoChdir, given, known, stat, directory] using
                      .refused (by simp)
                | true =>
                    simpa [chdirStep, tebakoChdir, given, known, stat, directory] using
                      .inside given known stat directory
              · simpa [chdirStep, tebakoChdir, given, known, stat] using .refused (by simp)
              · simpa [chdirStep, tebakoChdir, given, known, stat] using .refused (by simp)
              · simpa [chdirStep, tebakoChdir, given, known, stat] using .refused (by simp)
      | none =>
          cases moved : op.hostChdir path with
          | error errno =>
              simpa [chdirStep, tebakoChdir, given, known, moved] using .refused (by simp)
          | ok there =>
              simpa [chdirStep, tebakoChdir, given, known, moved] using .host given known moved

theorem chdirStep_placed {op : ChdirOp} (placed : dirs.cwd.WellPlaced) (hosted : HostDir dirs.hostCwd)
    (permitted : op.Permitted dirs) :
    (chdirStep op dirs).2.cwd.WellPlaced ∧ HostDir (chdirStep op dirs).2.hostCwd := by
  have changes := chdirStep_changes op dirs
  obtain ⟨old, cwd, _⟩ := id placed
  generalize chdirStep op dirs = result at changes ⊢
  cases changes with
  | refused other => exact ⟨placed, hosted⟩
  | inside given known found directory =>
      have allowed := permitted _ given
      rw [known] at allowed
      have set := wellPlaced_set (allowed _ found directory) old
      rw [← cwd] at set
      exact ⟨set, hosted⟩
  | host given unknown moved =>
      have allowed := permitted _ given
      rw [unknown] at allowed
      exact ⟨⟨.empty, by rw [cwd]; rfl, .inl rfl⟩, allowed _ moved⟩

/-- From the mounting of a root image on, the current directory stays in place
through every sequence of permitted changes. -/
theorem cwd_wellPlaced (hostCwd : CString) (dirs : WorkingDir) (hosted : HostDir hostCwd)
    (reached : Machine.Reaches chdirStep ChdirOp.Permitted ⟨.init, hostCwd⟩ dirs) :
    dirs.cwd.WellPlaced ∧ NamesBase dirs := by
  have kept : dirs.cwd.WellPlaced ∧ HostDir dirs.hostCwd := by
    apply @Machine.Reaches.invariant _ _ _ _ _ _ _
      (fun dirs => dirs.cwd.WellPlaced ∧ HostDir dirs.hostCwd) reached
    · exact ⟨⟨.empty, rfl, .inl rfl⟩, hosted⟩
    · exact fun dirs op holds permitted => chdirStep_placed holds.1 holds.2 permitted
  exact ⟨kept.1, namesBase_of_placed kept.1 kept.2⟩

/-- A root image without entries, on a host where every path names a directory. -/
def directoriesWorld : World := .ofLinks [] (.ok ⟨2, 0o040755, 0⟩)

def chdirTo (path : Str) : ChdirOp := ⟨directoriesWorld, .ok, 9, some (cStr path)⟩

def homePath : CString := cStr ['/', 'h', 'o', 'm', 'e']

theorem chdir_to_mount_point :
    let dirs := (chdirStep (chdirTo tebakoMountPoint) ⟨.init, homePath⟩).2
    dirs.cwd.WellPlaced ∧ NamesBase dirs := by
  refine cwd_wellPlaced homePath _ (by unfold HostDir; decide) (.step _ .start ?_)
  intro path same
  obtain rfl : cStr tebakoMountPoint = path := Option.some.inj same
  intro st found directory
  exact .inl (by decide)

/-- From the root directory of the memfs, `..` is the root directory of the
host, which is found to be a directory and stored as one of the memfs. -/
theorem chdir_to_parent_not_wellPlaced : ¬ ∀ hostCwd dirs, HostDir hostCwd →
    Machine.Reaches chdirStep (fun _ _ => True) ⟨.init, hostCwd⟩ dirs →
      dirs.cwd.WellPlaced ∧ NamesBase dirs := by
  intro always
  have reached : Machine.Reaches chdirStep (fun _ _ => True) ⟨.init, homePath⟩
      ⟨some (cStr ['/']), homePath⟩ :=
    .step (chdirTo ['.', '.']) (.step (chdirTo tebakoMountPoint) .start trivial) trivial
  obtain ⟨⟨p, same, spelled⟩, _⟩ := always homePath _ (by unfold HostDir; decide) reached
  cases same
  revert spelled
  decide

end Tebako
