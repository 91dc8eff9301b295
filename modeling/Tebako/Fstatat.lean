import Tebako.FileIo

namespace Tebako

open Data Data.Loop Data.LexicalPath

/-! The attributes of a file, by a path from an open directory.

Whether the last link is followed is passed on from one function to the next,
down to where the path leads out of the memfs. -/

def atSymlinkNofollow : UInt32 := 0x100

/-- `none` is `DWARFS_INVALID_FD`. -/
abbrev FstatatAnswer := Option (Except Errno Lookup)

def FdTable.fstatat (w : World) (fuel : Nat) (vfd : Int) (path : CString) (follow : Bool)
    (table : FdTable) : Option FstatatAnswer :=
  match table.fstat vfd with
  | none => some none
  | some stfd =>
      if stfd.isDir = false then some (some (.error .ENOTDIR))
      else
        let inode := stfd.ino.toUInt32
        match inodeMemfsCall w.memfsTable (fun memfs inode => memfs.inodeAccess inode xOk) inode with
        | .error errno => some (some (.error errno))
        | .ok () => (dwarfsInodeRelativeStat w fuel inode path follow).map some

/-- A host file that the path leads to is looked at with `tebako_stat`, whatever
the flag. -/
def fstatatAnswered (w : World) (host : HostFiles) (hostFstatat : Except Errno FileStat) (fuel : Nat) :
    FstatatAnswer → Attempt
  | none => some (hostFstatat.map .inode)
  | some (.ok (.linkOutside lnk _)) => tebakoStat (w.on host) fuel lnk
  | some found => some found

def tebakoFstatat (w : World) (host : HostFiles) (hostFstatat : Int → CString → UInt32 → Except Errno FileStat)
    (fuel : Nat) (vfd : Int) (path : CString) (flag : UInt32) (table : FdTable) : Attempt :=
  if isAbsolute path.chars ∨ vfd = atFdcwd then
    if flag &&& atSymlinkNofollow ≠ 0 then tebakoLstat w host fuel path
    else tebakoStat (w.on host) fuel path
  else
    (table.fstatat (w.on host) fuel vfd path (flag &&& atSymlinkNofollow = 0)).bind
      (fstatatAnswered w host (hostFstatat vfd path flag) fuel)

/-- The result is that of `tebako_lstat` or `tebako_stat` on the joined path. -/
def StatsAlike (w : World) (host : HostFiles)
    (hostFstatat : Int → CString → UInt32 → Except Errno FileStat) (dir r : CString) (vfd : Int)
    (flag : UInt32) (table : FdTable) : Prop :=
  ∀ result, (∃ fuel, tebakoFstatat w host hostFstatat fuel vfd r flag table = some result) ↔
    ∃ fuel, (if flag &&& atSymlinkNofollow ≠ 0 then tebakoLstat w host fuel (dir.join r)
      else tebakoStat (w.on host) fuel (dir.join r)) = some result

variable {w : World} {host : HostFiles} {dir r named lnk : CString} {st seen : FileStat} {count : Nat}
variable {hostFstatat : Int → CString → UInt32 → Except Errno FileStat} {vfd : Int} {flag : UInt32}
variable {table : FdTable} {follow : Bool} {found result : Except Errno Lookup}

theorem tebakoStat_outside (absolute : isAbsolute lnk.chars = true) (unknown : isTebakoPath lnk = false)
    (fuel : Nat) : tebakoStat (w.on host) fuel lnk = some ((host.stat lnk).map .inode) := by
  have elsewhere : toTebakoPath (w.on host).cwd lnk = none := by
    simp [toTebakoPath, absolute, unknown]
  simp only [tebakoStat, tebakoStatVia, elsewhere]
  rfl

theorem fstatatAnswered_eq {other : Except Errno FileStat}
    (outside : ∀ lnk seen, found = .ok (.linkOutside lnk seen) →
      isAbsolute lnk.chars = true ∧ isTebakoPath lnk = false) (fuel : Nat) :
    fstatatAnswered w host other fuel (some found) = some ((w.on host).statOutside found) := by
  rcases found with errno | (seen | ⟨lnk, seen⟩ | ⟨lnk, seen⟩ | ⟨lnk, seen⟩)
  · rfl
  · rfl
  · rfl
  · rfl
  · obtain ⟨absolute, unknown⟩ := outside lnk seen rfl
    exact tebakoStat_outside absolute unknown fuel

theorem relative_outside {inode : UInt32} {fuel : Nat}
    (ran : dwarfsInodeRelativeStat w fuel inode r follow = some (.ok (.linkOutside lnk seen))) :
    isAbsolute lnk.chars = true ∧ isTebakoPath lnk = false := by
  obtain ⟨state, _, answers⟩ := @Request.started w follow (.relativeStat inode r) fuel _ ran
  exact ⟨outside_absolute answers, (answers_outside_iff.mp answers).2⟩

theorem tebakoFstatat_iff (opened : OpenedAs (w.on host) table vfd dir st)
    (joins : JoinsAt (w.on host) dir r named st count) (searched : st.mode &&& 0o100 ≠ 0) :
    (∃ fuel, tebakoFstatat w host hostFstatat fuel vfd r flag table = some result) ↔
      ∃ found, (∃ fuel, dwarfsInodeRelativeStat (w.on host) fuel st.ino.toUInt32 r
          (flag &&& atSymlinkNofollow = 0) = some found) ∧ (w.on host).statOutside found = result := by
  have relative : ¬ (isAbsolute r.chars = true ∨ vfd = atFdcwd) := by
    simp [joins.inner.relative, opened.not_cwd]
  have directory : ¬ st.isDir = false := by simp [joins.isDir]
  simp only [tebakoFstatat, if_neg relative, FdTable.fstatat, opened.holds, if_neg directory,
    joins.access searched]
  constructor
  · intro returns
    obtain ⟨fuel, ran⟩ := returns
    obtain ⟨_, looked, answered⟩ := Option.bind_eq_some_iff.mp ran
    obtain ⟨found, ran, rfl⟩ := Option.map_eq_some_iff.mp looked
    rw [fstatatAnswered_eq fun lnk seen same => relative_outside (same ▸ ran)] at answered
    exact ⟨found, ⟨fuel, ran⟩, Option.some.inj answered⟩
  · intro returns
    obtain ⟨found, ⟨fuel, ran⟩, rfl⟩ := returns
    refine ⟨fuel, ?_⟩
    rw [ran, Option.map_some, Option.bind_some]
    exact fstatatAnswered_eq (fun lnk seen same => relative_outside (same ▸ ran)) fuel

/-! ## With and without following -/

theorem statOutside_lookedAt {again : Bool} : w.statOutside (w.lookedAt again found) = w.statOutside found := by
  cases again with
  | false => rfl
  | true => exact statOutside_statOutside

theorem followed_iff (opened : OpenedAs (w.on host) table vfd dir st)
    (joins : JoinsAt (w.on host) dir r named st count) (searched : st.mode &&& 0o100 ≠ 0)
    (follows : flag &&& atSymlinkNofollow = 0) :
    StatsAlike w host hostFstatat dir r vfd flag table ↔ r.chars ≠ dot := by
  have known : toTebakoPath w.cwd (dir.join r) = some (named.join r).normal :=
    (joins.directory.join joins.inner joins.fits).known
  simp only [StatsAlike, follows, ne_eq, not_true_eq_false, ↓reduceIte,
    tebakoFstatat_iff opened joins searched, tebakoStat_iff known, decide_true]
  constructor
  · intro alike here
    have missing := (alike (.error .ENOENT)).mp ⟨_, (joins.relative_dot here).mpr rfl, rfl⟩
    obtain ⟨found, looked, same⟩ := missing
    obtain rfl := (joins.joined_dot (.inl rfl) here).mp looked
    cases same
  · intro notDot result
    simp only [joins.lookup_iff (.inl rfl) notDot, exists_comp_iff, statOutside_lookedAt]

theorem map_inode_injective {left right : Except Errno FileStat}
    (same : left.map Lookup.inode = right.map .inode) : left = right := by
  cases left <;> cases right <;> simp_all [Except.map]

theorem not_followed_iff (opened : OpenedAs (w.on host) table vfd dir st)
    (joins : JoinsAt (w.on host) dir r named st 0) (searched : st.mode &&& 0o100 ≠ 0)
    (stays : flag &&& atSymlinkNofollow ≠ 0) :
    StatsAlike w host hostFstatat dir r vfd flag table ↔
      (∀ lnk, LeadsOut (w.on host) st r false lnk → host.stat lnk = host.lstat lnk) ∧ r.chars ≠ dot := by
  have known : toTebakoPath w.cwd (dir.join r) = some (named.join r).normal :=
    (joins.directory.join joins.inner joins.fits).known
  simp only [StatsAlike, stays, ne_eq, not_false_eq_true, ↓reduceIte,
    tebakoFstatat_iff opened joins searched, tebakoLstat_iff known, decide_false]
  constructor
  · intro alike
    have notDot : r.chars ≠ dot := by
      intro here
      obtain ⟨found, looked, same⟩ :=
        (alike (.error .ENOENT)).mp ⟨_, (joins.relative_dot here).mpr rfl, rfl⟩
      obtain rfl := (joins.joined_dot (.inr rfl) here).mp looked
      cases same
    refine ⟨fun lnk leads => ?_, notDot⟩
    obtain ⟨fuel, seen, ran⟩ := leads
    obtain ⟨found, looked, same⟩ := (alike _).mp ⟨_, ⟨fuel, ran⟩, rfl⟩
    obtain ⟨other, ⟨larger, ranOther⟩, rfl⟩ := (joins.lookup_iff (.inr rfl) notDot).mp looked
    obtain rfl := relative_unique ran ranOther
    have same : (host.lstat lnk).map Lookup.inode = (host.stat lnk).map .inode := same
    exact (map_inode_injective same).symm
  · intro joined result
    obtain ⟨plain, notDot⟩ := joined
    simp only [dwarfsLstat, joins.lookup_iff (.inr rfl) notDot, exists_comp_iff]
    refine exists_congr fun found => and_congr_right fun ran => ?_
    obtain ⟨fuel, ran⟩ := ran
    have same : host.lstatOutside found = (w.on host).statOutside found := by
      rcases found with errno | (seen | ⟨lnk, seen⟩ | ⟨lnk, seen⟩ | ⟨lnk, seen⟩)
      · rfl
      · rfl
      · rfl
      · rfl
      · exact congrArg (Except.map Lookup.inode) (plain lnk ⟨fuel, seen, ran⟩).symm
    change (w.on host).statOutside found = result ↔ host.lstatOutside found = result
    rw [same]

/-- For a directory that its descriptor stands for, `fstatat` is `stat` or
`lstat` on the joined path, except that a link of the host is followed all the
same, and that `.` is not found. -/
theorem fstatat_alike_iff (w : World) (host : HostFiles)
    (hostFstatat : Int → CString → UInt32 → Except Errno FileStat) (table : FdTable) (vfd : Int)
    (dir r named : CString) (st : FileStat) (count : Nat) (flag : UInt32)
    (opened : OpenedAs (w.on host) table vfd dir st)
    (joins : JoinsAt (w.on host) dir r named st count) (searched : st.mode &&& 0o100 ≠ 0)
    (direct : flag &&& atSymlinkNofollow = 0 ∨ count = 0) :
    StatsAlike w host hostFstatat dir r vfd flag table ↔
      (flag &&& atSymlinkNofollow ≠ 0 →
        ∀ lnk, LeadsOut (w.on host) st r false lnk → host.stat lnk = host.lstat lnk) ∧ r.chars ≠ dot := by
  by_cases follows : flag &&& atSymlinkNofollow = 0
  · rw [followed_iff opened joins searched follows]
    exact ⟨fun notDot => ⟨fun stays => absurd follows stays, notDot⟩, fun both => both.2⟩
  · obtain rfl := direct.resolve_left follows
    rw [not_followed_iff opened joins searched follows]
    exact and_congr_left fun _ => ⟨fun plain _ => plain, fun plain => plain follows⟩

/-- A host where every path is a link to a file. -/
def linkHost : HostFiles where
  stat _ := .ok hostFile
  lstat _ := .ok ⟨8, 0o120777, 0⟩

def fileHost : HostFiles where
  stat _ := .ok hostFile
  lstat _ := .ok hostFile

def noFstatat (_ : Int) (_ : CString) (_ : UInt32) : Except Errno FileStat := .error .EBADF

theorem below_link_joins :
    JoinsAt linkOutWorld rootPath (cStr ['l', '/', 'x']) rootPath rootStat 0 :=
  @root_joins _ (.outside (cStr ['/', 'e', '/', 'x']) ⟨1, 0o120777, 0⟩, 0)
    ⟨by decide, by decide, by decide⟩ (by decide) ⟨9, by rfl⟩ (by simp)

theorem below_link_stats_alike : StatsAlike linkOutWorld fileHost noFstatat rootPath
    (cStr ['l', '/', 'x']) 5 atSymlinkNofollow rootTable :=
  (fstatat_alike_iff linkOutWorld fileHost noFstatat rootTable 5 rootPath (cStr ['l', '/', 'x'])
    rootPath rootStat 0 atSymlinkNofollow root_opened below_link_joins (by decide) (.inr rfl)).mpr
    ⟨fun _ _ _ => rfl, by decide⟩

/-- A link of the host behind a link out of the memfs is followed. -/
theorem host_link_followed : ¬ ∀ w host hostFstatat table vfd dir r named st flag,
    NamedInMemfs w.cwd dir named → OpenedAs (w.on host) table vfd dir st → st.isDir = true →
    st.mode &&& 0o100 ≠ 0 → Inner r → StatsAlike w host hostFstatat dir r vfd flag table := by
  intro always
  have alike := always linkOutWorld linkHost noFstatat rootTable 5 rootPath (cStr ['l', '/', 'x'])
    rootPath rootStat atSymlinkNofollow below_link_joins.directory root_opened below_link_joins.isDir
    (by decide) below_link_joins.inner
  have opened : OpenedAs (linkOutWorld.on linkHost) rootTable 5 rootPath rootStat := root_opened
  have joins : JoinsAt (linkOutWorld.on linkHost) rootPath (cStr ['l', '/', 'x']) rootPath rootStat 0 :=
    below_link_joins
  have leads : LeadsOut linkOutWorld rootStat (cStr ['l', '/', 'x']) false (cStr ['/', 'e', '/', 'x']) :=
    ⟨9, ⟨1, 0o120777, 0⟩, by rfl⟩
  have same := ((not_followed_iff opened joins (by decide) (by decide)).mp alike).1 _ leads
  revert same
  decide

end Tebako
