import Tebako.FindInode

namespace Tebako

open Data Data.Loop Data.LexicalPath

/-! The chain of links and mount points that a lookup follows.

`find_inode_abs` and `tebako_stat` call each other once for every absolute link
that leads back into the memfs. Here the whole chain is one loop: after such a
link it goes on at the root directory. -/

/-- Where an absolute link leads: to a path looked up from the root directory,
to no place at all, or out of the memfs. -/
inductive Exit where
  | inside (path : CString)
  | lost
  | outside
deriving DecidableEq

/-- As `find_inode_abs` and `find_inode_root` tell it from the text. -/
def codedExit (lnk : CString) : Exit :=
  if isTebakoPath lnk then
    match adjustedPath (tebakoPathAssign lnk.normal.chars) with
    | none => .lost
    | some path => .inside path
  else .outside

inductive Outcome where
  | inode (st : FileStat)
  | failed (errno : Errno)
  | relative (lnk : CString) (st : FileStat)
  | outside (lnk : CString) (st : FileStat)
  | lost (lnk : CString)
deriving DecidableEq

/-- The outcome, and how many absolute links led back into the memfs before. -/
abbrev Resolved := Outcome × Nat

variable (w : World) (exit : CString → Exit) (follow : Bool)

def leaveInode (reentries : Nat) : Except Errno Lookup → Step (FindState × Nat) Resolved
  | .error errno => .halt (.failed errno, reentries)
  | .ok (.inode st) => .halt (.inode st, reentries)
  | .ok (.linkRelative lnk st) => .halt (.relative lnk st, reentries)
  | .ok (.linkOutside lnk st) => .halt (.outside lnk st, reentries)
  | .ok (.linkAbsolute lnk st) =>
      match exit lnk with
      | .outside => .halt (.outside lnk st, reentries)
      | .lost => .halt (if follow then .lost lnk else .inode st, reentries)
      | .inside path =>
          if follow then
            match w.memfsTable[(0 : UInt32)]? with
            | none => .halt (.failed .ENOENT, reentries)
            | some root => .next (.start root root.dwarfsRootInode path, reentries + 1)
          else .halt (.inode st, reentries)

def chainBody : FindState × Nat → Step (FindState × Nat) Resolved :=
  nested (findBody w follow) (leaveInode w exit follow)

def Outcome.result : Outcome → Except Errno Lookup
  | .inode st => .ok (.inode st)
  | .failed errno => .error errno
  | .relative lnk st => .ok (.linkRelative lnk st)
  | .outside lnk st => .ok (.linkOutside lnk st)
  | .lost _ => .error .ENOENT

/-- From the second image on, it has passed through `tebako_stat`. -/
def answer (outcome : Outcome) : Nat → Except Errno Lookup
  | 0 => outcome.result
  | _ + 1 => w.statOutside outcome.result

/-- The lookup that starts at `state` comes to this result. -/
def Answers (state : FindState) (result : Except Errno Lookup) : Prop :=
  ∃ found, Returns (findBody w follow) state found ∧
    ∃ fuel, followAbs w (findInodeAbs w fuel) follow found = some result

variable {w exit follow}
variable {again more : Memfs → UInt32 → CString → Bool → Attempt}
variable {memfs root : Memfs} {inode : UInt32} {path lnk : CString} {st : FileStat}
variable {state : FindState} {result found : Except Errno Lookup} {outcome : Outcome}

theorem statOutside_statOutside : w.statOutside (w.statOutside found) = w.statOutside found := by
  rcases found with errno | (st | ⟨lnk, st⟩ | ⟨lnk, st⟩ | ⟨lnk, st⟩)
  · rfl
  · rfl
  · rfl
  · rfl
  · change w.statOutside ((w.hostStat lnk).map .inode) = (w.hostStat lnk).map .inode
    cases w.hostStat lnk <;> rfl

theorem statOutside_answer (outcome : Outcome) (count : Nat) :
    w.statOutside (answer w outcome count) = answer w outcome (count + 1) := by
  cases count with
  | zero => rfl
  | succ count => exact statOutside_statOutside

theorem codedExit_eq_outside_iff : codedExit lnk = .outside ↔ isTebakoPath lnk = false := by
  cases known : isTebakoPath lnk with
  | false => simp [codedExit, known]
  | true =>
      simp only [codedExit, known, ↓reduceIte, Bool.true_eq_false, iff_false]
      split <;> simp

theorem isTebakoPath_of_codedExit {place : Exit} (exits : codedExit lnk = place)
    (back : place ≠ .outside) : isTebakoPath lnk = true :=
  eq_true_of_ne_false fun unknown =>
    back (exits.symm.trans (codedExit_eq_outside_iff.mpr unknown))

/-! ## The recursion -/

theorem tebakoStatVia_of_isTebakoPath (known : isTebakoPath lnk = true) :
    tebakoStatVia w again lnk =
      match codedExit lnk, w.memfsTable[(0 : UInt32)]? with
      | .inside path, some root => (again root root.dwarfsRootInode path true).map w.statOutside
      | _, _ => some (.error .ENOENT) := by
  simp only [tebakoStatVia, toTebakoPath_of_isTebakoPath known, dwarfsStatVia, rootMemfsCall, memfsCall, codedExit, known,
    findInodeRootVia]
  cases w.memfsTable[(0 : UInt32)]? with
  | none => cases adjustedPath (tebakoPathAssign lnk.normal.chars) <;> rfl
  | some root => cases adjustedPath (tebakoPathAssign lnk.normal.chars) <;> rfl

theorem tebakoStatVia_mono (known : isTebakoPath lnk = true)
    (grows : ∀ memfs inode path result, again memfs inode path true = some result →
      more memfs inode path true = some result)
    (ran : tebakoStatVia w again lnk = some result) : tebakoStatVia w more lnk = some result := by
  rw [tebakoStatVia_of_isTebakoPath known] at ran ⊢
  split
  · rename_i path root exits held
    rw [exits, held] at ran
    obtain ⟨inner, finished, same⟩ := Option.map_eq_some_iff.mp ran
    rw [grows _ _ _ _ finished, Option.map_some, same]
  · rename_i nowhere
    split at ran
    · rename_i path root exits held
      exact absurd held (nowhere path root exits)
    · exact ran

theorem followAbs_mono
    (grows : ∀ memfs inode path result, again memfs inode path true = some result →
      more memfs inode path true = some result)
    (ran : followAbs w again follow found = some result) :
    followAbs w more follow found = some result := by
  rcases found with errno | (st | ⟨lnk, st⟩ | ⟨lnk, st⟩ | ⟨lnk, st⟩)
  · exact ran
  · exact ran
  · exact ran
  · simp only [followAbs] at ran ⊢
    split
    · rename_i known
      rw [if_pos known] at ran
      cases follow with
      | false => exact ran
      | true => exact tebakoStatVia_mono known grows ran
    · rename_i unknown
      rwa [if_neg unknown] at ran
  · exact ran

theorem findInodeAbs_mono {fuel larger : Nat} (enough : fuel ≤ larger)
    (ran : findInodeAbs w fuel memfs inode path follow = some result) :
    findInodeAbs w larger memfs inode path follow = some result := by
  induction fuel generalizing memfs inode path follow larger result with
  | zero => cases ran
  | succ fuel ih =>
      obtain ⟨larger, rfl⟩ : ∃ rest, larger = rest + 1 := ⟨larger - 1, by omega⟩
      obtain ⟨found, loop, after⟩ := Option.bind_eq_some_iff.mp ran
      have loop := run_mono enough loop
      have after := followAbs_mono (fun _ _ _ _ => ih (Nat.le_of_succ_le_succ enough)) after
      exact Option.bind_eq_some_iff.mpr ⟨found, loop, after⟩

theorem dwarfsStat_mono {fuel larger : Nat} (enough : fuel ≤ larger)
    (ran : dwarfsStat w fuel path follow = some result) : dwarfsStat w larger path follow = some result := by
  simp only [dwarfsStat, dwarfsStatVia] at ran ⊢
  cases held : rootMemfsCall w.memfsTable .ok with
  | error errno => simpa only [held] using ran
  | ok memfs =>
      cases adjusted : adjustedPath path with
      | none => simpa only [held, findInodeRootVia, adjusted] using ran
      | some rest =>
          simp only [held, findInodeRootVia, adjusted] at ran ⊢
          exact findInodeAbs_mono enough ran

theorem answers_start_iff :
    Answers w follow (.start memfs inode path) result ↔
      ∃ fuel, findInodeAbs w fuel memfs inode path follow = some result := by
  constructor
  · intro answers
    obtain ⟨found, ⟨steps, loop⟩, fuel, after⟩ := answers
    refine ⟨max steps fuel + 1, Option.bind_eq_some_iff.mpr ⟨found, ?_, ?_⟩⟩
    · exact run_mono (by omega) loop
    · exact followAbs_mono (fun _ _ _ _ => findInodeAbs_mono (Nat.le_max_right _ _)) after
  · intro ran
    obtain ⟨fuel, ran⟩ := ran
    cases fuel with
    | zero => cases ran
    | succ fuel =>
        obtain ⟨found, loop, after⟩ := Option.bind_eq_some_iff.mp ran
        exact ⟨found, ⟨fuel + 1, loop⟩, fuel, after⟩

theorem answers_of_next {after : FindState} (moved : findBody w follow state = .next after)
    (answers : Answers w follow after result) : Answers w follow state result := by
  obtain ⟨found, finished, rest⟩ := answers
  exact ⟨found, (returns_iff_of_next moved).mpr finished, rest⟩

theorem answers_of_halt (stopped : findBody w follow state = .halt found)
    (ran : ∃ fuel, followAbs w (findInodeAbs w fuel) follow found = some result) :
    Answers w follow state result :=
  ⟨found, returns_of_halt stopped, ran⟩

theorem Answers.unique {other : Except Errno Lookup} (first : Answers w follow state result)
    (second : Answers w follow state other) : result = other := by
  obtain ⟨found, finished, fuel, ran⟩ := first
  obtain ⟨foundOther, finishedOther, larger, ranOther⟩ := second
  obtain rfl := finished.unique finishedOther
  have left := followAbs_mono (fun _ _ _ _ => findInodeAbs_mono (Nat.le_max_left fuel larger)) ran
  have right :=
    followAbs_mono (fun _ _ _ _ => findInodeAbs_mono (Nat.le_max_right fuel larger)) ranOther
  exact Option.some.inj (left.symm.trans right)

/-! ## The chain reports what the functions return -/

theorem leaveInode_next {reentries : Nat} {after : FindState × Nat}
    (left : leaveInode w exit follow reentries found = .next after) :
    ∃ lnk st path root, found = .ok (.linkAbsolute lnk st) ∧ exit lnk = .inside path ∧
      follow = true ∧ w.memfsTable[(0 : UInt32)]? = some root ∧
      after = (.start root root.dwarfsRootInode path, reentries + 1) := by
  rcases found with errno | (st | ⟨lnk, st⟩ | ⟨lnk, st⟩ | ⟨lnk, st⟩)
  · cases left
  · cases left
  · cases left
  · simp only [leaveInode] at left
    cases exits : exit lnk with
    | outside =>
        rw [exits] at left
        cases left
    | lost =>
        rw [exits] at left
        cases left
    | inside path =>
        rw [exits] at left
        cases follow with
        | false => cases left
        | true =>
            cases held : w.memfsTable[(0 : UInt32)]? with
            | none => simp [held] at left
            | some root =>
                simp only [held, ↓reduceIte, Step.next.injEq] at left
                exact ⟨lnk, st, path, root, rfl, exits, rfl, rfl, left.symm⟩
  · cases left

theorem followAbs_leave {reentries : Nat} {other : Resolved}
    (left : leaveInode w codedExit follow reentries found = .halt other) :
    other.2 = reentries ∧
      ∀ fuel, followAbs w (findInodeAbs w fuel) follow found = some other.1.result := by
  rcases found with errno | (st | ⟨lnk, st⟩ | ⟨lnk, st⟩ | ⟨lnk, st⟩)
  · cases left
    exact ⟨rfl, fun _ => rfl⟩
  · cases left
    exact ⟨rfl, fun _ => rfl⟩
  · cases left
    exact ⟨rfl, fun _ => rfl⟩
  · simp only [leaveInode] at left
    cases exits : codedExit lnk with
    | outside =>
        rw [exits] at left
        cases left
        have unknown := codedExit_eq_outside_iff.mp exits
        exact ⟨rfl, fun _ => by simp [followAbs, unknown, Outcome.result]⟩
    | lost =>
        rw [exits] at left
        cases left
        have known := isTebakoPath_of_codedExit exits (by simp)
        refine ⟨rfl, fun fuel => ?_⟩
        cases follow with
        | false => simp [followAbs, known, Outcome.result]
        | true => simp [followAbs, known, tebakoStatVia_of_isTebakoPath known, exits, Outcome.result]
    | inside path =>
        rw [exits] at left
        have known := isTebakoPath_of_codedExit exits (by simp)
        cases follow with
        | false =>
            cases left
            exact ⟨rfl, fun _ => by simp [followAbs, known, Outcome.result]⟩
        | true =>
            cases held : w.memfsTable[(0 : UInt32)]? with
            | none =>
                simp only [held, ↓reduceIte, Step.halt.injEq] at left
                cases left
                refine ⟨rfl, fun fuel => ?_⟩
                simp [followAbs, known, tebakoStatVia_of_isTebakoPath known, exits, held,
                  Outcome.result]
            | some root =>
                simp [held] at left
  · cases left
    exact ⟨rfl, fun _ => rfl⟩

/-- After a link back into the memfs the result has passed `tebako_stat`. -/
theorem answers_of_reentry {count : Nat}
    (stopped : findBody w true state = .halt (.ok (.linkAbsolute lnk st)))
    (exits : codedExit lnk = .inside path) (held : w.memfsTable[(0 : UInt32)]? = some root)
    (answers : Answers w true (.start root root.dwarfsRootInode path) (answer w outcome count)) :
    Answers w true state (answer w outcome (count + 1)) := by
  obtain ⟨fuel, ran⟩ := answers_start_iff.mp answers
  have known := isTebakoPath_of_codedExit exits (by simp)
  refine answers_of_halt stopped ⟨fuel, ?_⟩
  simp only [followAbs, known, ↓reduceIte, tebakoStatVia_of_isTebakoPath known, exits, held, ran,
    Option.map_some, statOutside_answer]

theorem answers_of_returns {both : FindState × Nat} {last : Nat}
    (returned : Returns (chainBody w codedExit follow) both (outcome, last)) :
    both.2 ≤ last ∧ Answers w follow both.1 (answer w outcome (last - both.2)) := by
  induction returned using Returns.rec_on with
  | halt both stopped =>
      obtain ⟨state, reentries⟩ := both
      rcases nested_cases stopped with ⟨after, _, same⟩ | ⟨found, taken, left⟩
      · cases same
      · obtain ⟨same, ran⟩ := followAbs_leave left
        have same : last = reentries := same
        refine ⟨Nat.le_of_eq same.symm, answers_of_halt taken ⟨0, ?_⟩⟩
        rw [ran, same, Nat.sub_self]
        rfl
  | next both after moved _ ih =>
      obtain ⟨state, reentries⟩ := both
      rcases nested_cases moved with ⟨reached, taken, same⟩ | ⟨found, taken, left⟩
      · cases same
        exact ⟨ih.1, answers_of_next taken ih.2⟩
      · obtain ⟨lnk, st, path, root, rfl, exits, rfl, held, rfl⟩ := leaveInode_next left
        have later : reentries + 1 ≤ last := ih.1
        have count : last - reentries = last - (reentries + 1) + 1 := by omega
        refine ⟨Nat.le_of_succ_le later, ?_⟩
        simp only [count]
        exact answers_of_reentry taken exits held ih.2

theorem halts_of_findInodeAbs {fuel reentries : Nat}
    (ran : findInodeAbs w fuel memfs inode path follow = some result) :
    Halts (chainBody w codedExit follow) (.start memfs inode path, reentries) := by
  induction fuel generalizing memfs inode path result reentries with
  | zero => cases ran
  | succ fuel ih =>
      obtain ⟨found, loop, after⟩ := Option.bind_eq_some_iff.mp ran
      have finished : Returns (findBody w follow) (.start memfs inode path) found := ⟨_, loop⟩
      cases left : leaveInode w codedExit follow reentries found with
      | halt other => exact ⟨other, (returns_nested finished).mpr (by rw [left]; rfl)⟩
      | next start =>
          obtain ⟨lnk, st, target, root, rfl, exits, rfl, held, rfl⟩ := leaveInode_next left
          have known := isTebakoPath_of_codedExit exits (by simp)
          simp only [followAbs, known, ↓reduceIte, tebakoStatVia_of_isTebakoPath known, exits, held]
            at after
          obtain ⟨inner, again, _⟩ := Option.map_eq_some_iff.mp after
          obtain ⟨other, rest⟩ := @ih root root.dwarfsRootInode target inner (reentries + 1) again
          exact ⟨other, (returns_nested finished).mpr (by rw [left]; exact rest)⟩

theorem halts_of_answers (answers : Answers w follow (.start memfs inode path) result) :
    Halts (chainBody w codedExit follow) (.start memfs inode path, 0) := by
  obtain ⟨fuel, ran⟩ := answers_start_iff.mp answers
  exact halts_of_findInodeAbs ran

end Tebako
