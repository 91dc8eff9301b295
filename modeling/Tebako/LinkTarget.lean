import Tebako.LinkChain
import Tebako.PathClass

namespace Tebako

open Data Data.Loop Data.LexicalPath

/-! What a path resolves to, and what the functions that follow links return.

A link leads into the memfs when the path it names is the mount point or lies
below it, and out of it otherwise. The chain of links resolved so is the
measure for `dwarfs_stat` and `dwarfs_inode_relative_stat`. -/

/-- A path that does not fit a `tebako_path_t` is not looked up. -/
def exitOf (lnk : CString) : Exit :=
  if Below tebakoMountPoint lnk.chars then
    if lnk.chars.length ≤ tebakoPathLength then .inside (lnk.drop (tebakoMountPointLength + 1))
    else .lost
  else .outside

/-- The calls that look a path up. -/
inductive Request where
  | stat (path : CString)
  | relativeStat (inode : UInt32) (path : CString)

namespace Request

def run (w : World) (fuel : Nat) : Request → Bool → Attempt
  | .stat path, follow => dwarfsStat w fuel path follow
  | .relativeStat inode path, follow => dwarfsInodeRelativeStat w fuel inode path follow

/-- The image, the inode and the path that the lookup starts with. -/
def start (w : World) : Request → Except Errno FindState
  | .stat path =>
      match w.memfsTable[(0 : UInt32)]?, adjustedPath path with
      | some root, some adjusted => .ok (.start root root.dwarfsRootInode adjusted)
      | _, _ => .error .ENOENT
  | .relativeStat inode path =>
      match w.memfsTable[getFsIndex inode.toUInt64]? with
      | none => .error .ENOENT
      | some memfs => .ok (.start memfs inode path)

end Request

/-- What a path resolves to when all links are followed. -/
def Resolves (w : World) (request : Request) (resolved : Resolved) : Prop :=
  match request.start w with
  | .error errno => resolved = (.failed errno, 0)
  | .ok state => Returns (chainBody w exitOf true) (state, 0) resolved

def MountedInode (w : World) (st : FileStat) : Prop :=
  ∃ (index : UInt32) (memfs : Memfs) (pi : InodeView),
    w.memfsTable[index]? = some memfs ∧ memfs.getattr pi = .ok st

/-- A successful lookup has found the inode that the path resolves to, in a
mounted image; a path that leads outside is reported as a link to there. -/
def FollowsSoundly (w : World) (request : Request) (resolved : Resolved) : Prop :=
  (∀ fuel st, request.run w fuel true = some (.ok (.inode st)) →
    resolved.1 = .inode st ∧ MountedInode w st) ∧
  ∀ lnk st, resolved.1 = .outside lnk st →
    ∃ fuel, request.run w fuel true = some (.ok (.linkOutside lnk st))

/-- No link back into the memfs comes before the one that leads outside, and
that one does not look like a path of the memfs. -/
def LeavesDirectly (resolved : Resolved) : Prop :=
  ∀ lnk st, resolved.1 = .outside lnk st → resolved.2 = 0 ∧ isTebakoPath lnk = false

variable {w : World} {exit : CString → Exit} {follow : Bool} {state after : FindState}
variable {request : Request} {result found : Except Errno Lookup} {outcome : Outcome}
variable {lnk path : CString} {st : FileStat} {both : FindState × Nat} {last : Nat}

theorem Request.run_iff :
    (∃ fuel, request.run w fuel follow = some result) ↔
      match request.start w with
      | .error errno => result = .error errno
      | .ok state => Answers w follow state result := by
  cases request with
  | stat path =>
      simp only [Request.run, Request.start, dwarfsStat, dwarfsStatVia, rootMemfsCall, memfsCall]
      cases w.memfsTable[(0 : UInt32)]? with
      | none => simp [eq_comm]
      | some root =>
          cases adjusted : adjustedPath path with
          | none => simp [findInodeRootVia, adjusted, eq_comm]
          | some rest =>
              simp only [findInodeRootVia, adjusted]
              exact answers_start_iff.symm
  | relativeStat inode path =>
      simp only [Request.run, Request.start, dwarfsInodeRelativeStat, inodeMemfsCall]
      cases w.memfsTable[getFsIndex inode.toUInt64]? with
      | none => simp [eq_comm]
      | some memfs => exact answers_start_iff.symm

/-- A lookup that finds something has an image to start in. -/
theorem Request.started {fuel : Nat} {there : Lookup} (ran : request.run w fuel follow = some (.ok there)) :
    ∃ state, request.start w = .ok state ∧ Answers w follow state (.ok there) := by
  have answers := Request.run_iff.mp ⟨fuel, ran⟩
  cases starts : request.start w with
  | error errno =>
      rw [starts] at answers
      cases answers
  | ok state =>
      rw [starts] at answers
      exact ⟨state, rfl, answers⟩

theorem Resolves.unique {resolved other : Resolved} (first : Resolves w request resolved)
    (second : Resolves w request other) : resolved = other := by
  cases starts : request.start w with
  | error errno =>
      simp only [Resolves, starts] at first second
      exact first.trans second.symm
  | ok state =>
      simp only [Resolves, starts] at first second
      exact Returns.unique first second

/-! ## Links as they are told apart by text and by name -/

theorem codedExit_of_inside (exits : exitOf lnk = .inside path) (normal : lnk.normal = lnk) :
    codedExit lnk = .inside path := by
  by_cases below : Below tebakoMountPoint lnk.chars
  · by_cases fits : lnk.chars.length ≤ tebakoPathLength
    · rw [exitOf, if_pos below, if_pos fits] at exits
      rw [codedExit, if_pos (isTebakoPath_of_below below), normal,
        tebakoPathAssign_eq_iff.mpr fits, adjustedPath_of_below below]
      exact exits
    · simp [exitOf, below, fits] at exits
  · simp [exitOf, below] at exits

theorem statOutside_not_outside : w.statOutside found ≠ .ok (.linkOutside lnk st) := by
  rcases found with errno | (st | ⟨lnk, st⟩ | ⟨lnk, st⟩ | ⟨lnk, st⟩)
  · simp [World.statOutside]
  · simp [World.statOutside]
  · simp [World.statOutside]
  · simp [World.statOutside]
  · simp only [World.statOutside]
    cases w.hostStat lnk <;> simp [Except.map]

theorem FindLeave.normal (left : FindLeave w follow state lnk st) : lnk.normal = lnk := by
  have normal : ∀ target rest, (processLink target rest).normal = processLink target rest :=
    fun target rest => CString.ext (lexicallyNormal_lexicallyNormal _)
  cases left with
  | start found linked =>
      obtain ⟨_, target, _, rfl⟩ := processInode_link linked
      exact normal _ _
  | link named free found linked =>
      obtain ⟨_, target, _, rfl⟩ := processInode_link linked
      exact normal _ _
  | mount named mount => exact normal _ _

/-- The links that the code takes for something else end the chain. -/
def Mistaken (outcome : Outcome) : Prop :=
  (∃ lnk, outcome = .lost lnk) ∨ ∃ lnk st, outcome = .outside lnk st ∧ isTebakoPath lnk = true

theorem leaveInode_codedExit {reentries : Nat} (leave : FindLeave w true state lnk st) :
    leaveInode w codedExit true reentries (.ok (.linkAbsolute lnk st)) =
        leaveInode w exitOf true reentries (.ok (.linkAbsolute lnk st)) ∨
      ∃ outcome, Mistaken outcome ∧
        leaveInode w exitOf true reentries (.ok (.linkAbsolute lnk st)) =
          .halt (outcome, reentries) := by
  cases exits : exitOf lnk with
  | outside =>
      cases known : isTebakoPath lnk with
      | true => exact .inr ⟨.outside lnk st, .inr ⟨lnk, st, rfl, known⟩, by simp [leaveInode, exits]⟩
      | false =>
          left
          have same := codedExit_eq_outside_iff.mpr known
          simp [leaveInode, exits, same]
  | lost => exact .inr ⟨.lost lnk, .inl ⟨lnk, rfl⟩, by simp [leaveInode, exits]⟩
  | inside path =>
      left
      simp only [leaveInode, exits, codedExit_of_inside exits leave.normal]

theorem chainBody_codedExit (both : FindState × Nat) :
    chainBody w codedExit true both = chainBody w exitOf true both ∨
      ∃ other : Resolved, Mistaken other.1 ∧ chainBody w exitOf true both = .halt other := by
  obtain ⟨state, reentries⟩ := both
  cases taken : findBody w true state with
  | next after =>
      left
      rw [chainBody, chainBody, nested_next taken, nested_next taken]
  | halt found =>
      rw [chainBody, chainBody, nested_halt taken, nested_halt taken]
      cases findHalt_of_halt taken with
      | failed errno => exact .inl rfl
      | inode ended => exact .inl rfl
      | relative left relative => exact .inl rfl
      | absolute leave absolute =>
          rcases @leaveInode_codedExit _ _ _ _ reentries leave with same | ⟨outcome, wrong, stopped⟩
          · exact .inl same
          · exact .inr ⟨_, wrong, stopped⟩

/-- Up to the end of a chain that is not mistaken, the code goes the same way. -/
theorem returns_codedExit (returned : Returns (chainBody w exitOf true) both (outcome, last))
    (plain : ¬ Mistaken outcome) : Returns (chainBody w codedExit true) both (outcome, last) := by
  induction returned using Returns.rec_on with
  | halt both stopped =>
      rcases @chainBody_codedExit w both with same | ⟨other, wrong, ended⟩
      · exact returns_of_halt (same.trans stopped)
      · obtain rfl : other = (outcome, last) := Step.halt.inj (ended.symm.trans stopped)
        exact absurd wrong plain
  | next both after moved _ ih =>
      rcases @chainBody_codedExit w both with same | ⟨other, _, ended⟩
      · exact (returns_iff_of_next (same.trans moved)).mpr ih
      · exact absurd (ended.symm.trans moved) (by simp)

theorem halts_exitOf (halts : Halts (chainBody w codedExit true) both) :
    Halts (chainBody w exitOf true) both := by
  obtain ⟨result, returned⟩ := halts
  induction returned using Returns.rec_on with
  | halt both stopped =>
      rcases @chainBody_codedExit w both with same | ⟨other, _, ended⟩
      · exact ⟨result, returns_of_halt (same.symm.trans stopped)⟩
      · exact ⟨other, returns_of_halt ended⟩
  | next both after moved _ ih =>
      rcases @chainBody_codedExit w both with same | ⟨other, _, ended⟩
      · exact (halts_of_next (same.symm.trans moved)).mpr ih
      · exact ⟨other, returns_of_halt ended⟩

theorem exitOf_outside (unknown : isTebakoPath lnk = false) : exitOf lnk = .outside := by
  rw [exitOf, if_neg]
  intro below
  rw [isTebakoPath_of_below below] at unknown
  cases unknown

/-- A link outside is reported where the first absolute link is one. -/
theorem answers_outside_iff : Answers w follow state (.ok (.linkOutside lnk st)) ↔
    Returns (findBody w follow) state (.ok (.linkAbsolute lnk st)) ∧ isTebakoPath lnk = false := by
  constructor
  · intro answers
    obtain ⟨found, finished, fuel, ran⟩ := answers
    obtain ⟨ended, _, _, stopped⟩ := finished.invariant (fun _ _ _ _ => trivial) trivial
    cases findHalt_of_halt stopped with
    | failed errno => cases ran
    | inode there => cases ran
    | relative left relative => cases ran
    | @absolute _ other attributes left absolute =>
        simp only [followAbs] at ran
        split at ran
        · rename_i known
          cases follow with
          | false => cases ran
          | true =>
              simp only [↓reduceIte, tebakoStatVia_of_isTebakoPath known] at ran
              split at ran
              · obtain ⟨inner, _, same⟩ := Option.map_eq_some_iff.mp ran
                exact absurd same statOutside_not_outside
              · cases ran
        · rename_i unknown
          cases ran
          exact ⟨finished, eq_false_of_ne_true unknown⟩
  · intro found
    obtain ⟨finished, unknown⟩ := found
    exact ⟨_, finished, 0, by simp [followAbs, unknown]⟩

/-! ## The images a chain goes through -/

/-- The image is mounted, and the attributes are of one of its inodes. -/
def Held (w : World) : FindState → Prop
  | .start memfs _ _ => ∃ index : UInt32, w.memfsTable[index]? = some memfs
  | .walk memfs _ st _ =>
      (∃ index : UInt32, w.memfsTable[index]? = some memfs) ∧ ∃ pi, memfs.getattr pi = .ok st

theorem held_of_move (move : FindMove w follow state after) (held : Held w state) :
    Held w after := by
  cases move with
  | entered found passed => exact ⟨held, _, (processInode_passed passed).1⟩
  | child named free found passed => exact ⟨held.1, _, (processInode_passed passed).1⟩
  | relativeLink named free found linked relative => exact ⟨held.1, _, (processInode_link linked).1⟩
  | relativeMount named mount relative => exact held
  | memfsMount named mount there => exact ⟨_, there⟩

theorem mounted_of_leave (left : FindLeave w follow state lnk st) (held : Held w state) :
    MountedInode w st := by
  cases left with
  | start found linked =>
      obtain ⟨index, there⟩ := held
      exact ⟨index, _, _, there, (processInode_link linked).1⟩
  | link named free found linked =>
      obtain ⟨⟨index, there⟩, _⟩ := held
      exact ⟨index, _, _, there, (processInode_link linked).1⟩
  | mount named mount =>
      obtain ⟨⟨index, there⟩, pi, stat⟩ := held
      exact ⟨index, _, pi, there, stat⟩

theorem held_of_chain (moved : chainBody w exit follow both = .next (after, last))
    (held : Held w both.1) : Held w after := by
  obtain ⟨state, reentries⟩ := both
  rcases nested_cases moved with ⟨reached, taken, same⟩ | ⟨found, taken, left⟩
  · cases same
    exact held_of_move (findMove_of_next taken) held
  · obtain ⟨_, _, _, root, _, _, _, there, same⟩ := leaveInode_next left
    cases same
    exact ⟨0, there⟩

theorem mounted_of_returns (returned : Returns (chainBody w exit follow) both (.inode st, last))
    (held : Held w both.1) : MountedInode w st := by
  obtain ⟨⟨state, reentries⟩, _, held, stopped⟩ :=
    returned.invariant (fun _ _ held moved => held_of_chain moved held) held
  rcases nested_cases stopped with ⟨after, _, same⟩ | ⟨found, taken, stopped⟩
  · cases same
  · cases findHalt_of_halt taken with
    | failed errno => cases stopped
    | inode ended =>
        cases stopped
        obtain ⟨⟨index, there⟩, pi, stat⟩ := held
        exact ⟨index, _, pi, there, stat⟩
    | relative left relative => cases stopped
    | @absolute _ lnk attributes left absolute =>
        have mounted := mounted_of_leave left held
        simp only [leaveInode] at stopped
        split at stopped
        · cases stopped
        · split at stopped
          · cases stopped
          · cases stopped
            exact mounted
        · split at stopped
          · split at stopped <;> cases stopped
          · cases stopped
            exact mounted

theorem Request.start_held (starts : request.start w = .ok state) :
    ∃ (index : UInt32) (memfs : Memfs) (inode : UInt32) (path : CString),
      state = .start memfs inode path ∧ w.memfsTable[index]? = some memfs := by
  cases request with
  | stat path =>
      simp only [Request.start] at starts
      split at starts
      · rename_i root adjusted there _
        cases starts
        exact ⟨0, root, _, _, rfl, there⟩
      · cases starts
  | relativeStat inode path =>
      simp only [Request.start] at starts
      split at starts
      · cases starts
      · rename_i memfs there
        cases starts
        exact ⟨_, memfs, _, _, rfl, there⟩

/-! ## Soundness -/

theorem answer_of_resolves (starts : request.start w = .ok state)
    (resolves : Resolves w request (outcome, last)) (plain : ¬ Mistaken outcome) :
    ∃ fuel, request.run w fuel true = some (answer w outcome last) := by
  simp only [Resolves, starts] at resolves
  have answers := (answers_of_returns (returns_codedExit resolves plain)).2
  rw [Request.run_iff, starts]
  exact answers

theorem Request.run_unique {fuel larger : Nat} {other : Except Errno Lookup}
    (first : request.run w fuel follow = some result)
    (second : request.run w larger follow = some other) : result = other := by
  have left := Request.run_iff.mp ⟨fuel, first⟩
  have right := Request.run_iff.mp ⟨larger, second⟩
  cases starts : request.start w with
  | error errno =>
      rw [starts] at left right
      exact left.trans right.symm
  | ok state =>
      rw [starts] at left right
      exact Answers.unique left right

theorem followsSoundly_of_direct (starts : request.start w = .ok state)
    (resolves : Resolves w request (outcome, last)) (plain : ¬ Mistaken outcome)
    (direct : LeavesDirectly (outcome, last)) : FollowsSoundly w request (outcome, last) := by
  obtain ⟨enough, ran⟩ := answer_of_resolves starts resolves plain
  simp only [Resolves, starts] at resolves
  obtain ⟨index, memfs, inode, path, rfl, there⟩ := Request.start_held starts
  constructor
  · intro fuel st succeeded
    have same := Request.run_unique ran succeeded
    cases outcome with
    | inode found =>
        have here : answer w (.inode found) last = .ok (.inode found) := by cases last <;> rfl
        rw [here] at same
        cases same
        exact ⟨rfl, mounted_of_returns resolves ⟨index, there⟩⟩
    | failed errno => cases last <;> cases same
    | relative lnk attributes => cases last <;> cases same
    | outside lnk attributes =>
        have here : last = 0 := (direct lnk attributes rfl).1
        subst here
        cases same
    | lost lnk => exact absurd (.inl ⟨lnk, rfl⟩) plain
  · intro lnk attributes outside
    have here : last = 0 := (direct lnk attributes outside).1
    have outside : outcome = .outside lnk attributes := outside
    subst here outside
    exact ⟨enough, ran⟩

/-- Following links is sound exactly when no chain comes back into the memfs
before it leaves it. -/
theorem followsSoundly_iff {resolved : Resolved} (resolves : Resolves w request resolved)
    (whole : ∀ lnk, resolved.1 ≠ .lost lnk) :
    FollowsSoundly w request resolved ↔ LeavesDirectly resolved := by
  obtain ⟨outcome, last⟩ := resolved
  cases starts : request.start w with
  | error errno =>
      have failed : (outcome, last) = (.failed errno, 0) := by
        simpa only [Resolves, starts] using resolves
      cases failed
      constructor
      · intro _ lnk st outside
        cases outside
      · intro _
        refine ⟨fun fuel st succeeded => ?_, fun lnk st outside => by cases outside⟩
        have same := Request.run_iff.mp ⟨fuel, succeeded⟩
        rw [starts] at same
        cases same
  | ok state =>
      constructor
      · intro sound lnk st outside
        have outside : outcome = .outside lnk st := outside
        subst outside
        obtain ⟨fuel, ran⟩ := sound.2 lnk st rfl
        have answers := Request.run_iff.mp ⟨fuel, ran⟩
        rw [starts] at answers
        simp only [Resolves, starts] at resolves
        obtain ⟨finished, unknown⟩ := answers_outside_iff.mp answers
        have leads := (returns_nested finished).mp resolves
        simp only [leaveInode, exitOf_outside unknown, Leads, Prod.mk.injEq] at leads
        exact ⟨leads.2, unknown⟩
      · intro direct
        refine followsSoundly_of_direct starts resolves ?_ direct
        intro mistaken
        rcases mistaken with ⟨lnk, lost⟩ | ⟨lnk, st, outside, known⟩
        · exact whole lnk lost
        · have unknown := (direct lnk st outside).2
          rw [known] at unknown
          cases unknown

end Tebako
