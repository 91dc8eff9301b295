import Tebako.ChdirComposition
import Tebako.RelativeLookup

namespace Tebako

open Data Data.LexicalPath

/-! Coming back to a directory by the path that `tebako_getcwd` gives for it. -/

/-- Whatever is changed to in between, a change to what `getcwd` has reported leads
back to the same directory. -/
def ComesBack (w : World) (hostChdir : CString → Except Errno CString) (here : WorkingDir) : Prop :=
  ∀ there, Machine.Reaches chdirStep (fun _ _ => True) here there →
    ∀ buf size dir, tebakoGetcwd here.cwd here.hostCwd buf size = .ok dir →
      ∃ enough back, (∀ fuel ≥ enough, chdirStep ⟨w, hostChdir, fuel, some dir⟩ there = (some .done, back)) ∧
        back.cwd = here.cwd ∧ (here.cwd.isIn = false → back.hostCwd = here.hostCwd)

/-! ## Lookups do not depend on the current directory -/

section Lookups

variable {w : World} {cwd : Cwd} {fuel : Nat} {follow : Bool} {path p : CString}

theorem followAbs_cwd (again : Memfs → UInt32 → CString → Bool → Attempt) (found : Except Errno Lookup) :
    followAbs { w with cwd := cwd } again follow found = followAbs w again follow found := by
  rcases found with errno | (st | ⟨lnk, st⟩ | ⟨lnk, st⟩ | ⟨lnk, st⟩)
  · rfl
  · rfl
  · rfl
  · unfold followAbs
    simp only
    split
    · rename_i known
      -- the path is absolute, so that the current directory is not looked at
      simp only [tebakoStatVia, toTebakoPath_of_isTebakoPath known]
      rfl
    · rfl
  · rfl

theorem findInodeAbs_cwd : findInodeAbs { w with cwd := cwd } fuel = findInodeAbs w fuel := by
  induction fuel with
  | zero => rfl
  | succ fuel ih =>
      funext memfs inode path follow
      simp only [findInodeAbs, ih]
      congr 1
      funext found
      exact followAbs_cwd (findInodeAbs w fuel) found

theorem dwarfsStat_cwd : dwarfsStat { w with cwd := cwd } fuel p follow = dwarfsStat w fuel p follow := by
  simp only [dwarfsStat, findInodeAbs_cwd]
  rfl

theorem tebakoStat_found (known : toTebakoPath w.cwd path = some p) {st : FileStat}
    (ran : dwarfsStat w fuel p true = some (.ok (.inode st))) :
    tebakoStat w fuel path = some (.ok (.inode st)) := by
  rw [dwarfsStat] at ran
  simp only [tebakoStat, tebakoStatVia, known, ran, Option.map_some]
  rfl

end Lookups

/-! ## The path that is reported -/

section Reported

variable {w : World} {cwd : Cwd} {path named dir : CString} {st : FileStat} {count : Nat}

/-- A directory joined with `.` is spelled with a separator at its end. -/
theorem normal_join_dot (absolute : isAbsolute named.chars = true) :
    (named.join (cStr dot)).normal = named.withSeparator.normal := by
  have present := ne_nil_of_absolute absolute
  apply CString.ext
  have relative : isAbsolute dot = false := rfl
  have spelled : (cStr dot).chars = dot := rfl
  rw [CString.normal_chars, CString.normal_chars, CString.join_chars, CString.withSeparator_chars, spelled]
  apply lexicallyNormal_eq_of_outline (append_ne_nil_of_absolute absolute relative) (by simp)
  rw [append, if_neg (by simp [relative])]
  split
  · rename_i ended
    rcases eq_append_separator_of_lastSegment ended with empty | ⟨front, same⟩
    · exact absurd empty present
    · have slashed : (outline (front ++ ['/'])).slash = true := by
        simp [outline, lastSegment_append_separator]
      have again : outline (front ++ '/' :: dot) = outline (front ++ ['/']) := outline_append_dot front
      rw [outline_separator present, same, List.append_assoc]
      change outline (front ++ '/' :: dot) = _
      rw [again, ← slashed]
  · exact outline_append_dot named.chars

/-- Another separator at the end changes nothing. -/
theorem normal_withSeparator_again (present : named.chars ≠ []) :
    named.withSeparator.normal.withSeparator.normal = named.withSeparator.normal := by
  have stored : (named.withSeparator.normal).chars ≠ [] := lexicallyNormal_ne_nil (by simp)
  apply CString.ext
  rw [CString.normal_chars, CString.withSeparator_chars]
  refine (lexicallyNormal_eq_of_outline (by simp) stored ?_).trans (lexicallyNormal_lexicallyNormal _)
  rw [outline_separator stored, CString.normal_chars, outline_lexicallyNormal (by simp),
    CString.withSeparator_chars, outline_separator present]

theorem dot_inner : Inner (cStr dot) := ⟨rfl, by decide, by decide⟩

theorem Joined.rooted (joins : Joined w path (cStr dot) named st count) : isAbsolute named.chars = true :=
  isAbsolute_of_below joins.directory.below

theorem Joined.reported (joins : Joined w path (cStr dot) named st count) :
    (named.join (cStr dot)).normal = named.withSeparator.normal :=
  normal_join_dot joins.rooted

theorem Joined.reported_assign (joins : Joined w path (cStr dot) named st count) :
    tebakoPathAssign named.withSeparator.normal.chars = named.withSeparator.normal :=
  tebakoPathAssign_eq_iff.mpr (joins.reported ▸ joins.fits)

theorem Joined.reported_known (joins : Joined w path (cStr dot) named st count) :
    isTebakoPath named.withSeparator.normal = true := by
  rw [← joins.reported]
  exact isTebakoPath_of_below (joins.inner.below_join joins.directory)

/-- What is reported is a path of the memfs, from everywhere. -/
theorem Joined.reported_to (joins : Joined w path (cStr dot) named st count) (cwd : Cwd) :
    toTebakoPath cwd named.withSeparator.normal = some named.withSeparator.normal := by
  have normal : named.withSeparator.normal.normal = named.withSeparator.normal :=
    CString.ext (lexicallyNormal_lexicallyNormal _)
  rw [toTebakoPath_of_isTebakoPath joins.reported_known, normal, joins.reported_assign]

theorem Joined.named_to (joins : Joined w path (cStr dot) named st count) (cwd : Cwd) :
    toTebakoPath cwd named = some named := by
  have known := joins.directory.known
  rw [toTebakoPath_eq fun relative _ here _ => joins.directory.rooted relative here, joins.directory.names, Option.bind_some] at known
  have fits : tebakoPathAssign named.chars = named := by
    split at known
    · cases known
    · exact Option.some.inj known
  rw [toTebakoPath_of_isTebakoPath (isTebakoPath_of_below joins.directory.below),
    normal_of_namedPath joins.directory.names, fits]

/-- The directory is found by its own path, and by the one that is reported. -/
theorem Joined.found (joins : Joined w path (cStr dot) named st count) : ∃ enough, ∀ fuel ≥ enough,
    dwarfsStat w fuel named true = some (.ok (.inode st)) ∧
      dwarfsStat w fuel named.withSeparator.normal true = some (.ok (.inode st)) := by
  obtain ⟨behind, again⟩ := (joins.joined_dot (.inl rfl) rfl).mpr rfl
  rw [joins.reported] at again
  have first : ∃ fuel, dwarfsStat w fuel named true = some (.ok (.inode st)) := by
    have resolves := joins.resolves
    cases starts : Request.start w (.stat named) with
    | error errno =>
        simp only [Resolves, starts] at resolves
        cases resolves
    | ok state =>
        have plain : ¬ Mistaken (.inode st) := by
          intro mistaken
          rcases mistaken with ⟨lnk, same⟩ | ⟨lnk, seen, same, _⟩ <;> cases same
        obtain ⟨fuel, ran⟩ := answer_of_resolves starts resolves plain
        have found : answer w (.inode st) count = .ok (.inode st) := by cases count <;> rfl
        exact ⟨fuel, found ▸ ran⟩
  obtain ⟨fuel, ran⟩ := first
  refine ⟨max fuel behind, fun larger enough => ⟨dwarfsStat_mono ?_ ran, dwarfsStat_mono ?_ again⟩⟩
  · exact (Nat.le_max_left _ _).trans enough
  · exact (Nat.le_max_right _ _).trans enough

end Reported

/-! ## Changes of directory -/

section Changes

variable {w : World} {hostChdir : CString → Except Errno CString} {here there : WorkingDir}
variable {path named p hostCwd : CString} {st : FileStat} {count fuel : Nat}

theorem chdirStep_to (known : toTebakoPath there.cwd path = some p) (again : toTebakoPath there.cwd p = some p)
    (ran : dwarfsStat w fuel p true = some (.ok (.inode st))) (isDir : st.isDir = true) :
    chdirStep ⟨w, hostChdir, fuel, some path⟩ there = (some .done, { there with cwd := there.cwd.set (some p) }) := by
  have found : tebakoStat { w with cwd := there.cwd } fuel p = some (.ok (.inode st)) :=
    tebakoStat_found again (dwarfsStat_cwd.trans ran)
  simp only [chdirStep, tebakoChdir, known, found, Option.map_some, isDir, ↓reduceIte]

theorem reaches_isSome (held : here.cwd.isSome)
    (reached : Machine.Reaches chdirStep (fun _ _ => True) here there) : there.cwd.isSome :=
  @Machine.Reaches.invariant _ _ _ _ _ _ _ (fun dirs => dirs.cwd.isSome) reached held
    fun _ op holds _ => chdirStep_isSome holds op

/-- After a change into the memfs, `getcwd` reports the directory with a separator at
the end, by which it is found again. -/
theorem comesBack_inside (joins : Joined { w with cwd := here.cwd } path (cStr dot) named st count)
    (hostCwd : CString) : ComesBack w hostChdir ⟨some named.withSeparator.normal, hostCwd⟩ := by
  intro there reached buf size dir reported
  have present := ne_nil_of_absolute joins.rooted
  have stored : named.withSeparator.normal.chars ≠ [] := lexicallyNormal_ne_nil (by simp)
  have got : dir = named.withSeparator.normal := by
    rw [tebakoGetcwd, Cwd.get, joins.reported_assign, if_pos (by simpa using stored)] at reported
    exact reportCwd_ok reported
  subst got
  obtain ⟨old, cwd⟩ := Option.isSome_iff_exists.mp (reaches_isSome rfl reached)
  obtain ⟨enough, found⟩ := joins.found
  refine ⟨enough, { there with cwd := some named.withSeparator.normal }, fun fuel more => ?_, rfl, fun outside => ?_⟩
  · have known := joins.reported_to there.cwd
    rw [chdirStep_to known known (dwarfsStat_cwd.symm.trans (found fuel more).2) joins.isDir, cwd, Cwd.set,
      Option.map_some, normal_withSeparator_again present]
  · have inside : Cwd.isIn (some named.withSeparator.normal) = true := decide_eq_true stored
    cases inside.symm.trans outside

theorem comesBack_host (held : here.cwd.isSome) (outside : here.cwd.isIn = false) (hosted : HostDir here.hostCwd)
    (kept : hostChdir here.hostCwd = .ok here.hostCwd) : ComesBack w hostChdir here := by
  intro there reached buf size dir reported
  obtain ⟨p, cwd⟩ := Option.isSome_iff_exists.mp held
  have empty : p = .empty := by
    apply CString.ext
    simpa [Cwd.isIn, cwd] using outside
  subst empty
  have got : dir = here.hostCwd := by
    rw [tebakoGetcwd, cwd, if_neg (by decide)] at reported
    exact reportCwd_ok reported
  subst got
  obtain ⟨old, now⟩ := Option.isSome_iff_exists.mp (reaches_isSome held reached)
  have unknown : toTebakoPath there.cwd here.hostCwd = none := by
    rw [toTebakoPath_of_absolute hosted.1, if_neg (by simp [hosted.2.2])]
  rw [now] at unknown
  refine ⟨0, here, fun fuel _ => ?_, rfl, fun _ => rfl⟩
  simp only [chdirStep, tebakoChdir, now, unknown, kept, Cwd.set, Option.map_some]
  rw [← cwd]

/-- From every state that changes of directory lead to: a change to a path that
resolves to a directory of the memfs succeeds, and what `getcwd` reports from then on
leads back there from wherever the process has gone meanwhile. The same holds of
directories of the host, as far as the host's own `chdir` takes what its `getcwd`
has given. -/
theorem chdir_comes_back (start : CString) (here : WorkingDir) (w : World)
    (hostChdir : CString → Except Errno CString)
    (reached : Machine.Reaches chdirStep (fun _ _ => True) ⟨.init, start⟩ here) :
    (∀ path named st count, Joined { w with cwd := here.cwd } path (cStr dot) named st count →
        ∃ enough inside, (∀ fuel ≥ enough,
            chdirStep ⟨w, hostChdir, fuel, some path⟩ here = (some .done, inside)) ∧
          ComesBack w hostChdir inside) ∧
      (here.cwd.isIn = false → HostDir here.hostCwd → hostChdir here.hostCwd = .ok here.hostCwd →
        ComesBack w hostChdir here) := by
  have held := reaches_isSome rfl reached
  refine ⟨fun path named st count joins => ?_, comesBack_host held⟩
  obtain ⟨old, cwd⟩ := Option.isSome_iff_exists.mp held
  obtain ⟨enough, found⟩ := joins.found
  refine ⟨enough, ⟨some named.withSeparator.normal, here.hostCwd⟩, fun fuel more => ?_, comesBack_inside joins _⟩
  rw [chdirStep_to joins.directory.known (joins.named_to here.cwd)
    (dwarfsStat_cwd.symm.trans (found fuel more).1) joins.isDir, cwd]
  rfl

end Changes

/-- A root directory with a directory `d` and a link `l` to it. -/
def linkedFolder : World :=
  .ofRoot (.ofEntries [⟨0, cStr ['d'], 0o040755, .empty⟩, ⟨0, cStr ['l'], 0o120777, cStr ['d']⟩]) ∅
    fun _ => .error .ENOENT

theorem linked_folder_joins :
    Joined linkedFolder (belowMountPoint ['l']) (cStr dot) (belowMountPoint ['l']) ⟨1, 0o040755, 0⟩ 0 where
  directory := ⟨by decide, by decide, by decide⟩
  inner := dot_inner
  isDir := by decide
  resolves := ⟨9, by rfl⟩
  images := ofRoot_regularImages (regular_of_entries rfl (by decide))
  undotted _ _ := undotted_of_unmounted
  fits := by decide +kernel
  whole other resolves := by
    have returned : Resolves linkedFolder (.stat ((belowMountPoint ['l']).join (cStr dot)).normal)
        (.inode ⟨1, 0o040755, 0⟩, 0) := ⟨9, by rfl⟩
    rw [resolves.unique returned]
    nofun

theorem linked_folder_and_back :
    (∃ enough inside, (∀ fuel ≥ enough,
        chdirStep ⟨linkedFolder, .ok, fuel, some (belowMountPoint ['l'])⟩ ⟨.init, homePath⟩ = (some .done, inside)) ∧
      ComesBack linkedFolder .ok inside) ∧ ComesBack linkedFolder .ok ⟨.init, homePath⟩ := by
  obtain ⟨inside, outside⟩ := chdir_comes_back homePath ⟨.init, homePath⟩ linkedFolder .ok .start
  exact ⟨inside _ _ _ _ linked_folder_joins, outside (by decide) (by unfold HostDir; decide) rfl⟩

end Tebako
