import Tebako.RelativeLookup

namespace Tebako

open Data Data.Loop Data.LexicalPath

/-! Opening a file, and asking for its attributes, by a path from a directory
that is open already. -/

/-- `AT_FDCWD` -/
def atFdcwd : Int := -100

/-- `O_TMPFILE`, which takes in `O_DIRECTORY` -/
def oTmpfile : UInt32 := 0o20200000

/-- A call of `open` or `openat` of the host, with its mode if one was given. -/
structure HostOpen where
  dir : Option Int
  path : CString
  flags : UInt32
  mode : Option UInt32
deriving DecidableEq

inductive OpenOutcome where
  | returned (vfd : Int)
  | host (call : HostOpen)
  | failed (errno : Errno)
  | exhausted
deriving DecidableEq

def openAnswered (flags : UInt32) (mode : Option UInt32) : OpenAnswer → OpenOutcome
  | .opened vfd => .returned vfd
  | .linkOutside lnk => .host ⟨none, lnk, flags, mode⟩
  | .failed errno => .failed errno
  | .exhausted => .exhausted
  | .invalidFd => .returned dwarfsInvalidFd

/-- `mode` is there if the number of arguments says so. -/
def tebakoOpen (w : World) (fuel : Nat) (path : Option CString) (flags : UInt32) (mode : Option UInt32)
    (dup : Int) (table : FdTable) : Option (OpenOutcome × FdTable) :=
  match path with
  | none => some (.failed .ENOENT, table)
  | some path =>
      match toTebakoPath w.cwd path with
      | none => some (.host ⟨none, path, flags, mode⟩, table)
      | some p => (table.open w fuel p flags dup).map fun (answer, after) =>
          (openAnswered flags mode answer, after)

/-- The mode is not handed on to the host where a path leads there. -/
def openatAnswered (vfd : Int) (path : CString) (flags : UInt32) (mode : Option UInt32) :
    OpenAnswer → OpenOutcome
  | .opened vfd => .returned vfd
  | .linkOutside lnk => .host ⟨some vfd, lnk, flags, none⟩
  | .failed errno => .failed errno
  | .exhausted => .exhausted
  | .invalidFd => .host ⟨some vfd, path, flags, mode⟩

def tebakoOpenat (w : World) (fuel : Nat) (vfd : Int) (path : CString) (flags : UInt32)
    (mode : Option UInt32) (dup : Int) (table : FdTable) : Option (OpenOutcome × FdTable) :=
  if isAbsolute path.chars = false ∧ vfd ≠ atFdcwd then
    (table.openat w fuel vfd path flags dup).map fun (answer, after) =>
      (openatAnswered vfd path flags mode answer, after)
  else tebakoOpen w fuel (some path) flags mode dup table

/-- The flags with which a file may come into being, and a mode is needed. -/
def NeedsMode (flags : UInt32) : Prop := flags &&& oCreat ≠ 0 ∨ flags &&& oTmpfile = oTmpfile

instance (flags : UInt32) : Decidable (NeedsMode flags) := inferInstanceAs (Decidable (_ ∨ _))

/-- What the host makes of a call: an absolute path needs no directory, and a
mode is read only with the flags that need one. -/
def HostOpen.seen (call : HostOpen) : HostOpen where
  dir := if isAbsolute call.path.chars then none else call.dir
  path := call.path
  flags := call.flags
  mode := if NeedsMode call.flags then call.mode else none

/-- After a failed `dup`, the error is what the closing of the handle has left. -/
def OpenOutcome.seen (left : Errno) : OpenOutcome → OpenOutcome
  | .host call => .host call.seen
  | .exhausted => .failed left
  | outcome => outcome

/-- The descriptor was obtained by opening the directory, and is still open. -/
structure OpenedAs (w : World) (table : FdTable) (vfd : Int) (dir : CString) (st : FileStat) : Prop where
  holds : table.fstat vfd = some st
  opened : ∃ fuel flags mode dup before after, 0 ≤ dup ∧
    tebakoOpen w fuel (some dir) flags mode dup before = some (.returned vfd, after) ∧
    after.fstat vfd = some st

/-- The calls have the same outcome and leave the same table behind. `leftAt`
and `left` are the errors that closing a new handle leaves, in `openat` and in `open`. -/
def OpensAlike (w : World) (dir r : CString) (vfd : Int) (flags mode : UInt32) (dup : Int)
    (leftAt left : Errno) (table : FdTable) : Prop :=
  ∀ outcome after,
    (∃ fuel, (tebakoOpenat w fuel vfd r flags (some mode) dup table).map
      (Prod.map (OpenOutcome.seen leftAt) id) = some (outcome, after)) ↔
    ∃ fuel, (tebakoOpen w fuel (some (dir.join r)) flags (some mode) dup table).map
      (Prod.map (OpenOutcome.seen left) id) = some (outcome, after)

/-- From the inode of the directory, the path leads out of the memfs to `lnk`. -/
def LeadsOut (w : World) (st : FileStat) (r : CString) (follow : Bool) (lnk : CString) : Prop :=
  ∃ fuel seen, dwarfsInodeRelativeStat w fuel st.ino.toUInt32 r follow = some (.ok (.linkOutside lnk seen))

/-- It leads to an inode that is opened with these flags if there is a number for it. -/
def LeadsIn (w : World) (st : FileStat) (r : CString) (flags : UInt32) : Prop :=
  ∃ fuel found, dwarfsInodeRelativeStat w fuel st.ino.toUInt32 r (flags &&& oNofollow = 0) = some found ∧
    Accepts found flags

variable {w : World} {dir r named lnk : CString} {st : FileStat} {count : Nat} {vfd dup : Int}
variable {flags mode : UInt32} {table after : FdTable} {follow : Bool} {leftAt left : Errno}
variable {found result : Except Errno Lookup} {outcome : OpenOutcome}

/-- With flags that do not accept what is found, it is not opened. -/
theorem openFound_cases : (∃ lnk st, found = .ok (.linkOutside lnk st) ∧
      table.openFound found flags dup = (.linkOutside lnk, table)) ∨
    (∃ errno, (table.openFound found flags dup).1 = .failed errno) ∨
    Accepts found flags ∧ ((table.openFound found flags dup).1 = .opened dup ∨
      dup = dwarfsIoError ∧ (table.openFound found flags dup).1 = .exhausted) := by
  rcases found with errno | (st | ⟨lnk, st⟩ | ⟨lnk, st⟩ | ⟨lnk, st⟩)
  · exact .inr (.inl ⟨_, rfl⟩)
  · right
    simp only [FdTable.openFound]
    split
    · exact .inl ⟨_, rfl⟩
    · rename_i read
      split
      · exact .inl ⟨_, rfl⟩
      · rename_i directory
        split
        · exact .inl ⟨_, rfl⟩
        · rename_i link
          have accepts := accepts_inode.mpr ⟨not_not.mp read, directory, link⟩
          split
          · exact .inr ⟨accepts, .inr ⟨‹_›, rfl⟩⟩
          · exact .inr ⟨accepts, .inl rfl⟩
  · exact .inr (.inl ⟨_, rfl⟩)
  · exact .inr (.inl ⟨_, rfl⟩)
  · exact .inl ⟨lnk, st, rfl, rfl⟩

theorem openFound_opened (answered : table.openFound found flags dup = (.opened vfd, after)) :
    vfd = dup ∧ vfd ≠ dwarfsIoError ∧
      ∃ st, found = .ok (.inode st) ∧ after = Std.ExtTreeMap.insert table vfd ⟨st, 0, 0, vfd⟩ := by
  rcases found with errno | (st | ⟨lnk, st⟩ | ⟨lnk, st⟩ | ⟨lnk, st⟩)
  · cases answered
  · simp only [FdTable.openFound] at answered
    split at answered
    · cases answered
    · split at answered
      · cases answered
      · split at answered
        · cases answered
        · split at answered
          · cases answered
          · rename_i valid
            cases answered
            exact ⟨rfl, valid, st, rfl, rfl⟩
  · cases answered
  · cases answered
  · cases answered

theorem openFound_outside (answered : (table.openFound found flags dup).1 = .linkOutside lnk) :
    ∃ st, found = .ok (.linkOutside lnk st) := by
  rcases @openFound_cases dup flags table found with
    ⟨other, st, same, result⟩ | ⟨errno, failed⟩ | ⟨_, opened | ⟨_, exhausted⟩⟩
  · rw [result] at answered
    cases answered
    exact ⟨st, same⟩
  · cases answered.symm.trans failed
  · cases answered.symm.trans opened
  · cases answered.symm.trans exhausted

theorem openFound_valid : (table.openFound found flags dup).1 ≠ .invalidFd := by
  intro answered
  rcases @openFound_cases dup flags table found with
    ⟨other, st, same, result⟩ | ⟨errno, failed⟩ | ⟨_, opened | ⟨_, exhausted⟩⟩
  · rw [result] at answered
    cases answered
  · cases answered.symm.trans failed
  · cases answered.symm.trans opened
  · cases answered.symm.trans exhausted

theorem tebakoOpen_iff {p path : CString} {mode : Option UInt32}
    (known : toTebakoPath w.cwd path = some p) {result : OpenOutcome × FdTable} :
    (∃ fuel, tebakoOpen w fuel (some path) flags mode dup table = some result) ↔
      ∃ found, (∃ fuel, dwarfsStat w fuel p (flags &&& oNofollow = 0) = some found) ∧
        (openAnswered flags mode (table.openFound found flags dup).1,
          (table.openFound found flags dup).2) = result := by
  simp only [tebakoOpen, known, FdTable.open, Option.map_map]
  exact exists_map_iff

theorem OpenedAs.not_cwd (opened : OpenedAs w table vfd dir st) : vfd ≠ atFdcwd := by
  obtain ⟨fuel, flags, mode, dup, before, after, valid, returned, _⟩ := opened.opened
  cases known : toTebakoPath w.cwd dir with
  | none => simp [tebakoOpen, known] at returned
  | some p =>
      obtain ⟨found, _, same⟩ := (tebakoOpen_iff known).mp ⟨fuel, returned⟩
      have answered := congrArg Prod.fst same
      rcases @openFound_cases dup flags before found with
        ⟨lnk, seen, _, outside⟩ | ⟨errno, failed⟩ | ⟨_, opened | ⟨_, exhausted⟩⟩
      · simp [outside, openAnswered] at answered
      · simp [failed, openAnswered] at answered
      · have number : dup = vfd := by simpa [opened, openAnswered] using answered
        rw [← number, atFdcwd]
        omega
      · simp [exhausted, openAnswered] at answered

/-! ## The two calls -/

theorem tebakoOpenat_iff {mode : Option UInt32} (opened : OpenedAs w table vfd dir st)
    (joins : JoinsAt w dir r named st count) (searched : st.mode &&& 0o100 ≠ 0)
    {result : OpenOutcome × FdTable} :
    (∃ fuel, tebakoOpenat w fuel vfd r flags mode dup table = some result) ↔
      ∃ found, (∃ fuel, dwarfsInodeRelativeStat w fuel st.ino.toUInt32 r (flags &&& oNofollow = 0) =
          some found) ∧
        (openatAnswered vfd r flags mode (table.openFound found flags dup).1,
          (table.openFound found flags dup).2) = result := by
  have relative : isAbsolute r.chars = false ∧ vfd ≠ atFdcwd := ⟨joins.inner.relative, opened.not_cwd⟩
  have directory : ¬ st.isDir = false := by simp [joins.isDir]
  simp only [tebakoOpenat, if_pos relative, FdTable.openat, opened.holds, if_neg directory,
    joins.access searched, Option.map_map]
  exact exists_map_iff

theorem outside_absolute {state : FindState} {seen : FileStat}
    (answers : Answers w follow state (.ok (.linkOutside lnk seen))) : isAbsolute lnk.chars = true :=
  have returned := (answers_outside_iff.mp answers).1
  have ⟨_, _, _, stopped⟩ := returned.invariant (fun _ _ _ _ => trivial) trivial
  (leave_of_linkAbsolute stopped).2

theorem LeadsOut.absolute (leads : LeadsOut w st r follow lnk) : isAbsolute lnk.chars = true := by
  obtain ⟨fuel, seen, ran⟩ := leads
  obtain ⟨state, _, answers⟩ := @Request.started w follow (.relativeStat st.ino.toUInt32 r) fuel _ ran
  exact outside_absolute answers

/-- What the host sees of a call through a link out of the memfs. -/
theorem seen_outside (absolute : isAbsolute lnk.chars = true) (mode : Option UInt32) (dir : Option Int) :
    HostOpen.seen ⟨dir, lnk, flags, mode⟩ = ⟨none, lnk, flags, if NeedsMode flags then mode else none⟩ := by
  simp only [HostOpen.seen, absolute, ↓reduceIte]

theorem relative_unique {fuel larger : Nat} {inode : UInt32} {other : Except Errno Lookup}
    (first : dwarfsInodeRelativeStat w fuel inode r follow = some found)
    (second : dwarfsInodeRelativeStat w larger inode r follow = some other) : found = other :=
  @Request.run_unique w follow (.relativeStat inode r) found fuel larger other first second

/-- The host is called only where a link leads there. -/
theorem outside_of_host {mode : Option UInt32} {call : HostOpen}
    (called : (openAnswered flags mode (table.openFound found flags dup).1).seen left = .host call) :
    ∃ lnk seen, found = .ok (.linkOutside lnk seen) := by
  rcases @openFound_cases dup flags table found with
    ⟨lnk, seen, same, _⟩ | ⟨errno, failed⟩ | ⟨_, opened | ⟨_, exhausted⟩⟩
  · exact ⟨lnk, seen, same⟩
  · rw [failed] at called
    cases called
  · rw [opened] at called
    cases called
  · rw [exhausted] at called
    cases called

/-- Of the outcomes for what is found, those for a link outside may differ, and
those of a failed `dup`. -/
theorem openatAnswered_seen (table : FdTable) (dup : Int)
    (outside : ∀ lnk seen, found = .ok (.linkOutside lnk seen) →
      isAbsolute lnk.chars = true ∧ ¬ NeedsMode flags)
    (closed : dup = dwarfsIoError → Accepts found flags → leftAt = left) :
    (openatAnswered vfd r flags (some mode) (table.openFound found flags dup).1).seen leftAt =
      (openAnswered flags (some mode) (table.openFound found flags dup).1).seen left := by
  rcases @openFound_cases dup flags table found with
    ⟨lnk, seen, same, there⟩ | ⟨errno, failed⟩ | ⟨accepts, opened | ⟨none, exhausted⟩⟩
  · obtain ⟨absolute, plain⟩ := outside lnk seen same
    simp only [there, openatAnswered, openAnswered, OpenOutcome.seen, seen_outside absolute, plain,
      ↓reduceIte]
  · simp only [failed, openatAnswered, openAnswered, OpenOutcome.seen]
  · simp only [opened, openatAnswered, openAnswered, OpenOutcome.seen]
  · simp only [exhausted, openatAnswered, openAnswered, OpenOutcome.seen, closed none accepts]

theorem openFound_exhausted (accepts : Accepts found flags) (none : dup = dwarfsIoError) :
    (table.openFound found flags dup).1 = .exhausted := by
  obtain ⟨st, rfl, _⟩ := id accepts
  obtain ⟨read, directory, link⟩ := accepts_inode.mp accepts
  simp only [FdTable.openFound, read, ne_eq, not_true_eq_false, if_neg directory, if_neg link, none,
    ↓reduceIte]

theorem openFound_of_write (write : flags &&& oWrite ≠ 0) :
    table.openFound (.ok (.inode st)) flags dup = table.openFound (.error .ENOENT) flags dup := by
  simp only [FdTable.openFound, write, ne_eq, not_false_eq_true, ↓reduceIte]

theorem openFound_dir (isDir : st.isDir = true) (read : flags &&& oWrite = 0) :
    (table.openFound (.ok (.inode st)) flags dup).1 = .exhausted ∨
      (table.openFound (.ok (.inode st)) flags dup).1 = .opened dup := by
  simp only [FdTable.openFound, read, ne_eq, not_true_eq_false, ↓reduceIte, isDir,
    isLnk_of_isDir isDir, Bool.true_eq_false, Bool.false_eq_true, false_and]
  split
  · exact .inl rfl
  · exact .inr rfl

theorem openFound_missing (read : flags &&& oWrite = 0) :
    (table.openFound (.error .ENOENT) flags dup).1 = .failed .ENOENT := by
  simp only [FdTable.openFound, read, ne_eq, not_true_eq_false, ↓reduceIte]

theorem lookedAt_eq {again : Bool}
    (outside : ∀ lnk seen, found = .ok (.linkOutside lnk seen) → again = false) :
    w.lookedAt again found = found := by
  cases again with
  | false => rfl
  | true =>
      rcases found with errno | (seen | ⟨lnk, seen⟩ | ⟨lnk, seen⟩ | ⟨lnk, seen⟩)
      · rfl
      · rfl
      · rfl
      · rfl
      · cases outside lnk seen rfl

theorem opensAlike_iff (opened : OpenedAs w table vfd dir st)
    (joins : JoinsAt w dir r named st count) (searched : st.mode &&& 0o100 ≠ 0) :
    OpensAlike w dir r vfd flags mode dup leftAt left table ↔ ∀ outcome after,
      (∃ found, (∃ fuel, dwarfsInodeRelativeStat w fuel st.ino.toUInt32 r (flags &&& oNofollow = 0) =
          some found) ∧
        ((openatAnswered vfd r flags (some mode) (table.openFound found flags dup).1).seen leftAt,
          (table.openFound found flags dup).2) = (outcome, after)) ↔
      ∃ found, (∃ fuel, dwarfsStat w fuel (named.join r).normal (flags &&& oNofollow = 0) = some found) ∧
        ((openAnswered flags (some mode) (table.openFound found flags dup).1).seen left,
          (table.openFound found flags dup).2) = (outcome, after) := by
  have joined := joins.directory.join joins.inner joins.fits
  simp only [OpensAlike, exists_map_iff, tebakoOpenat_iff opened joins searched,
    tebakoOpen_iff joined.known, exists_comp_iff]
  rfl

theorem opensAlike_of (opened : OpenedAs w table vfd dir st)
    (joins : JoinsAt w dir r named st count) (searched : st.mode &&& 0o100 ≠ 0)
    (direct : flags &&& oNofollow = 0 ∨ count = 0)
    (outside : ∀ lnk, LeadsOut w st r (flags &&& oNofollow = 0) lnk → count = 0 ∧ ¬ NeedsMode flags)
    (dotted : r.chars = dot → flags &&& oWrite ≠ 0)
    (closed : dup = dwarfsIoError → LeadsIn w st r flags → leftAt = left) :
    OpensAlike w dir r vfd flags mode dup leftAt left table := by
  have direct : decide (flags &&& oNofollow = 0) = true ∨ count = 0 :=
    direct.imp_left decide_eq_true
  rw [opensAlike_iff opened joins searched]
  intro outcome after
  by_cases here : r.chars = dot
  · simp only [joins.relative_dot here, joins.joined_dot direct here, exists_eq_left,
      openFound_of_write (dotted here)]
    rw [openatAnswered_seen table dup (by simp) (by simp [Accepts])]
  · simp only [joins.lookup_iff direct here, exists_comp_iff]
    refine exists_congr fun found => and_congr_right fun ran => ?_
    obtain ⟨fuel, ran⟩ := ran
    have leads : ∀ lnk seen, found = .ok (.linkOutside lnk seen) →
        LeadsOut w st r (flags &&& oNofollow = 0) lnk :=
      fun lnk seen same => ⟨fuel, seen, same ▸ ran⟩
    have whole : w.lookedAt (0 < count) found = found :=
      lookedAt_eq fun lnk seen same => by simp [(outside lnk (leads lnk seen same)).1]
    rw [whole, openatAnswered_seen table dup
      (fun lnk seen same => ⟨(leads lnk seen same).absolute, (outside lnk (leads lnk seen same)).2⟩)
      fun none accepts => closed none ⟨fuel, found, ran, accepts⟩]

/-- A link out of the memfs is a call of the host, with the mode left out. -/
theorem direct_of_alike (opened : OpenedAs w table vfd dir st)
    (joins : JoinsAt w dir r named st count) (searched : st.mode &&& 0o100 ≠ 0)
    (direct : flags &&& oNofollow = 0 ∨ count = 0)
    (alike : OpensAlike w dir r vfd flags mode dup leftAt left table)
    (leads : LeadsOut w st r (flags &&& oNofollow = 0) lnk) : count = 0 ∧ ¬ NeedsMode flags := by
  have direct : decide (flags &&& oNofollow = 0) = true ∨ count = 0 :=
    direct.imp_left decide_eq_true
  have absolute := leads.absolute
  obtain ⟨fuel, seen, ran⟩ := leads
  have notDot : r.chars ≠ dot := by
    intro here
    cases (joins.relative_dot here).mp ⟨fuel, ran⟩
  rw [opensAlike_iff opened joins searched] at alike
  obtain ⟨found, looked, same⟩ := (alike _ _).mp ⟨_, ⟨fuel, ran⟩, rfl⟩
  obtain ⟨relative, ⟨larger, ranOther⟩, rfl⟩ := (joins.lookup_iff direct notDot).mp looked
  obtain rfl := relative_unique ran ranOther
  have called := congrArg Prod.fst same
  obtain ⟨other, attributes, outside⟩ := outside_of_host called
  have first : count = 0 := by
    by_contra later
    simp only [World.lookedAt, Nat.pos_of_ne_zero later, decide_true, ↓reduceIte] at outside
    exact statOutside_not_outside outside
  subst first
  refine ⟨rfl, fun needs => ?_⟩
  simp [World.lookedAt, FdTable.openFound, openAnswered, openatAnswered, OpenOutcome.seen,
    seen_outside absolute, needs] at called

theorem write_of_alike (opened : OpenedAs w table vfd dir st)
    (joins : JoinsAt w dir r named st count) (searched : st.mode &&& 0o100 ≠ 0)
    (direct : flags &&& oNofollow = 0 ∨ count = 0)
    (known : left ≠ .ENOENT) (alike : OpensAlike w dir r vfd flags mode dup leftAt left table)
    (here : r.chars = dot) : flags &&& oWrite ≠ 0 := by
  have direct : decide (flags &&& oNofollow = 0) = true ∨ count = 0 :=
    direct.imp_left decide_eq_true
  intro read
  rw [opensAlike_iff opened joins searched] at alike
  obtain ⟨found, looked, same⟩ := (alike _ _).mp ⟨_, (joins.relative_dot here).mpr rfl, rfl⟩
  obtain rfl := (joins.joined_dot direct here).mp looked
  have failed := congrArg Prod.fst same
  simp only [openFound_missing read, openatAnswered, OpenOutcome.seen] at failed
  rcases @openFound_dir st dup flags table joins.isDir read with refused | opened
  · rw [refused] at failed
    exact known (OpenOutcome.failed.inj failed)
  · rw [opened] at failed
    cases failed

/-- Where there is no number for what both calls find, they fail alike only if
closing the handle does the same in both. -/
theorem left_of_alike (opened : OpenedAs w table vfd dir st)
    (joins : JoinsAt w dir r named st count) (searched : st.mode &&& 0o100 ≠ 0)
    (direct : flags &&& oNofollow = 0 ∨ count = 0)
    (alike : OpensAlike w dir r vfd flags mode dup leftAt left table) (none : dup = dwarfsIoError)
    (leads : LeadsIn w st r flags) : leftAt = left := by
  have direct : decide (flags &&& oNofollow = 0) = true ∨ count = 0 :=
    direct.imp_left decide_eq_true
  obtain ⟨fuel, found, ran, accepts⟩ := leads
  obtain ⟨inode, rfl, _⟩ := id accepts
  have notDot : r.chars ≠ dot := by
    intro here
    cases (joins.relative_dot here).mp ⟨fuel, ran⟩
  rw [opensAlike_iff opened joins searched] at alike
  obtain ⟨found, looked, same⟩ := (alike _ _).mp ⟨_, ⟨fuel, ran⟩, rfl⟩
  obtain ⟨relative, ⟨larger, ranOther⟩, rfl⟩ := (joins.lookup_iff direct notDot).mp looked
  obtain rfl := relative_unique ran ranOther
  rw [lookedAt_eq fun _ _ outside => by cases outside] at same
  have failed := congrArg Prod.fst same
  simp only [openFound_exhausted accepts none, openAnswered, openatAnswered, OpenOutcome.seen] at failed
  cases failed
  rfl

/-- For a directory that its descriptor stands for, `openat` is `open` on the
joined path, except that a file of the host is created without its mode, that
`.` is not found, and that the error of a failed `dup` may be lost. No closing
leaves the error of a missing file. -/
theorem openat_alike_iff (w : World) (table : FdTable) (vfd : Int) (dir r named : CString) (st : FileStat)
    (count : Nat) (flags mode : UInt32) (dup : Int) (leftAt left : Errno)
    (opened : OpenedAs w table vfd dir st) (joins : JoinsAt w dir r named st count)
    (searched : st.mode &&& 0o100 ≠ 0) (direct : flags &&& oNofollow = 0 ∨ count = 0)
    (known : left ≠ .ENOENT) : OpensAlike w dir r vfd flags mode dup leftAt left table ↔
      (∀ lnk, LeadsOut w st r (flags &&& oNofollow = 0) lnk → count = 0 ∧ ¬ NeedsMode flags) ∧
        (r.chars = dot → flags &&& oWrite ≠ 0) ∧
        (dup = dwarfsIoError → LeadsIn w st r flags → leftAt = left) := by
  constructor
  · intro alike
    exact ⟨fun lnk leads => direct_of_alike opened joins searched direct alike leads,
      fun here => write_of_alike opened joins searched direct known alike here,
      fun none leads => left_of_alike opened joins searched direct alike none leads⟩
  · intro plain
    obtain ⟨outside, dotted, closed⟩ := plain
    exact opensAlike_of opened joins searched direct outside dotted closed

/-- A root directory with a link `l` to a file of the host. -/
def linkOut : Memfs := .ofEntries [⟨0, cStr ['l'], 0o120777, cStr ['/', 'e']⟩]

def linkOutWorld : World := .ofRoot linkOut ∅ fun _ => .ok hostFile

def rootPath : CString := cStr tebakoMountPoint

def rootStat : FileStat := ⟨0, 0o040755, 0⟩

/-- The table with the root directory open. -/
def rootTable : FdTable := Std.ExtTreeMap.insert (∅ : FdTable) 5 ⟨rootStat, 0, 0, 5⟩

theorem root_opened : OpenedAs linkOutWorld rootTable 5 rootPath rootStat where
  holds := by simp [FdTable.fstat, rootTable]
  opened := ⟨9, 0, none, 5, ∅, rootTable, by decide, by rfl, by simp [FdTable.fstat, rootTable]⟩

theorem root_joins {resolved : Resolved} (inner : Inner r)
    (fits : (rootPath.join r).normal.chars.length ≤ tebakoPathLength)
    (returned : Resolves linkOutWorld (.stat (rootPath.join r).normal) resolved)
    (kept : ∀ lnk, resolved.1 ≠ .lost lnk) :
    JoinsAt linkOutWorld rootPath r rootPath rootStat 0 where
  directory := ⟨by decide, by decide, by decide⟩
  inner := inner
  isDir := by decide
  resolves := ⟨9, by rfl⟩
  images := ofRoot_regularImages (regular_of_entries rfl (by decide))
  undotted _ _ := undotted_of_unmounted
  identified _ _ ends := endsAtDir_ofRoot ends (by decide) (by rfl)
  undottedHere _ := by simp [linkOutWorld, World.ofRoot]
  fits := fits
  whole other resolves := by
    rw [resolves.unique returned]
    exact kept

theorem link_joins : JoinsAt linkOutWorld rootPath (cStr ['l']) rootPath rootStat 0 :=
  @root_joins _ (.outside (cStr ['/', 'e']) ⟨1, 0o120777, 0⟩, 0) ⟨by decide, by decide, by decide⟩
    (by decide) ⟨9, by rfl⟩ (by simp)

theorem link_opened_alike :
    OpensAlike linkOutWorld rootPath (cStr ['l']) 5 0 0 6 .EMFILE .EBADF rootTable :=
  (openat_alike_iff linkOutWorld rootTable 5 rootPath (cStr ['l']) rootPath rootStat 0 0 0 6 .EMFILE
    .EBADF root_opened link_joins (by decide) (.inl (by decide)) (by decide)).mpr
    ⟨fun _ _ => ⟨rfl, by decide⟩, fun here => absurd here (by decide),
      fun none => absurd none (by decide)⟩

/-- Through a link out of the memfs, a file is created with some mode or other. -/
theorem created_without_mode : ¬ ∀ w table vfd dir r named st flags mode dup leftAt left,
    NamedInMemfs w.cwd dir named → OpenedAs w table vfd dir st → st.isDir = true →
    st.mode &&& 0o100 ≠ 0 → Inner r → OpensAlike w dir r vfd flags mode dup leftAt left table := by
  intro always
  have alike := always linkOutWorld rootTable 5 rootPath (cStr ['l']) rootPath rootStat
    (oWronly ||| oCreat) 0o600 6 .EMFILE .EMFILE link_joins.directory root_opened link_joins.isDir
    (by decide) link_joins.inner
  have leads : LeadsOut linkOutWorld rootStat (cStr ['l']) true (cStr ['/', 'e']) :=
    ⟨9, ⟨1, 0o120777, 0⟩, by rfl⟩
  exact (direct_of_alike root_opened link_joins (by decide) (.inr rfl) alike leads).2 (by decide)

end Tebako
