import Tebako.FdOpen

namespace Tebako

open Data Data.Loop Data.LexicalPath

/-! `lstat`, and opening a file without following its last link.

Links in the middle of a path are followed whether the last one is or not. On a
path whose last name is neither a link nor a mount point there should be no
difference. -/

/-- What the host answers about its own files. -/
structure HostFiles where
  stat : CString → Except Errno FileStat
  lstat : CString → Except Errno FileStat

def World.on (w : World) (host : HostFiles) : World := { w with hostStat := host.stat }

def HostFiles.lstatOutside (host : HostFiles) : Except Errno Lookup → Except Errno Lookup
  | .ok (.linkOutside lnk _) => (host.lstat lnk).map .inode
  | found => found

def dwarfsLstat (w : World) (fuel : Nat) (path : CString) : Attempt := dwarfsStat w fuel path false

def tebakoLstat (w : World) (host : HostFiles) (fuel : Nat) (path : CString) : Attempt :=
  match toTebakoPath w.cwd path with
  | none => some ((host.lstat path).map .inode)
  | some path => (dwarfsLstat (w.on host) fuel path).map host.lstatOutside

def PlainName (w : World) (memfs : Memfs) (pi : InodeView) (name : CString) : Prop :=
  w.mountTable[(memfs.reported pi, name.chars)]? = none ∧
    ∀ child st, memfs.findChild (memfs.reported pi) name = some child →
      memfs.getattr child = .ok st → st.isLnk = false

/-- An image starts at an inode that is no link; and the next name is neither a
link nor a mount point if no other name comes after it. -/
def LastIsPlain (w : World) : FindState → Prop
  | .start memfs inode _ =>
      ∀ pi st, memfs.find inode = some pi → memfs.getattr pi = .ok st → st.isLnk = false
  | .walk _ _ _ [] => True
  | .walk memfs pi _ (name :: rest) =>
      name.chars ≠ [] → (∀ more ∈ rest, more.chars = []) → PlainName w memfs pi name

/-- However far the links on the way lead, the last name of the path is plain
where it is looked up at last. -/
def PlainLast (w : World) (p : CString) : Prop :=
  ∀ start, Request.start w (.stat p) = .ok start → ∀ both,
    Relation.ReflTransGen (Moves (chainBody w codedExit true)) (start, 0) both →
    LastIsPlain w both.1

/-- On the host it is no link either. -/
def HostFiles.PlainLast (host : HostFiles) (w : World) (p : CString) : Prop :=
  ∀ start, Request.start w (.stat p) = .ok start → ∀ lnk st count,
    Returns (chainBody w codedExit true) (start, 0) (.outside lnk st, count) →
    host.lstat lnk = host.stat lnk

/-- Following the last link or not is the same: `lstat` gives what `stat` does
and looks at the same file of the host, and files are opened alike. -/
structure FollowsAlike (w : World) (path p : CString) : Prop where
  stat : ∀ host, HostFiles.PlainLast host w p → ∀ result,
    (∃ fuel, tebakoLstat w host fuel path = some result) ↔
      ∃ fuel, tebakoStat (w.on host) fuel path = some result
  redirected : ∀ host lnk st,
    (∃ fuel, dwarfsLstat (w.on host) fuel p = some (.ok (.linkOutside lnk st))) ↔
      ∃ fuel, dwarfsStat (w.on host) fuel p true = some (.ok (.linkOutside lnk st))
  opened : ∀ host flags dup table answer, flags &&& oNofollow = 0 →
    ((∃ fuel, FdTable.open (w.on host) fuel p (flags ||| oNofollow) dup table = some answer) ↔
      ∃ fuel, FdTable.open (w.on host) fuel p flags dup table = some answer)

/-- The lookup meets no absolute link or mount point back into the memfs, or one
from which the rest of the path leads to where the lookup is already: from a
mount point, to the directory that it is in. -/
def NowhereBack (w : World) (p : CString) : Prop :=
  ∀ start, Request.start w (.stat p) = .ok start → ∀ lnk st,
    Returns (findBody w true) start (.ok (.linkAbsolute lnk st)) → isTebakoPath lnk = true →
    ∃ count, Returns (chainBody w codedExit true) (start, 0) (.inode st, count)

variable {w : World} {host : HostFiles} {memfs : Memfs} {pi : InodeView} {st : FileStat}
variable {state after start : FindState} {path p lnk target : CString} {rest : List CString}
variable {found result : Except Errno Lookup} {follow : Bool} {count : Nat}

/-! ## One round with and without following the last link -/

theorem processInode_follow
    (plain : ∀ st, memfs.getattr pi = .ok st → st.isLnk = true → rest.tail ≠ []) :
    memfs.processInode pi false rest = memfs.processInode pi true rest := by
  simp only [Memfs.processInode, Bind.bind, Except.bind]
  cases stat : memfs.getattr pi with
  | error errno => rfl
  | ok st =>
      cases link : st.isLnk with
      | false => simp only [link, Bool.false_eq_true, ↓reduceIte]
      | true => simp only [link, plain st stat link, ne_eq, not_false_eq_true, true_or, ↓reduceIte]

theorem findBody_follow (plain : LastIsPlain w state) :
    findBody w false state = findBody w true state := by
  cases state with
  | start memfs inode path =>
      cases found : memfs.find inode with
      | none => simp only [findBody, found]
      | some pi =>
          have same := @processInode_follow memfs pi path.components
            fun st stat link => absurd (plain pi st found stat) (by simp [link])
          simp only [findBody, found, same]
  | walk memfs pi st rest =>
      cases rest with
      | nil => rfl
      | cons name rest =>
          by_cases named : name.chars = []
          · simp only [findBody, named, ↓reduceIte]
          · cases mount : w.mountTable[(memfs.reported pi, name.chars)]? with
            | some there => cases there <;> simp only [findBody, named, mount]
            | none =>
                cases found : memfs.findChild (memfs.reported pi) name with
                | none => simp only [findBody, mount, found]
                | some child =>
                    have same := @processInode_follow memfs child (name :: rest) fun st stat link => by
                      intro last
                      have last : rest = [] := last
                      have clean := (plain named (by simp [last])).2 child st found stat
                      simp [link] at clean
                    simp only [findBody, mount, found, same]

/-! ## What is found in the end is no link -/

/-- With no name left, the attributes are not those of a link. -/
def EndsPlain : FindState → Prop
  | .start _ _ _ => True
  | .walk _ _ st rest => (∀ name ∈ rest.head?, name.chars = []) → st.isLnk = false

theorem endsPlain_of_move (move : FindMove w true state after) (plain : LastIsPlain w state) :
    EndsPlain after := by
  cases move with
  | entered found passed => exact fun _ => (passed_of_follow passed).2
  | child named free found passed => exact fun _ => (passed_of_follow passed).2
  | @relativeLink memfs pi child st before name lnk rest named free found linked relative =>
      intro ended
      obtain ⟨stat, target, _, rfl⟩ := processInode_link linked
      by_cases more : ∃ name ∈ rest, name.chars ≠ []
      · exact absurd ended (processLink_head relative (.inr more))
      · push Not at more
        exact (plain named more).2 child st found stat
  | @relativeMount memfs pi st name target rest named mount relative =>
      intro ended
      by_cases more : ∃ name ∈ rest, name.chars ≠ []
      · exact absurd ended (processLink_head relative (.inr more))
      · push Not at more
        rw [(plain named more).1] at mount
        cases mount
  | memfsMount named mount held => trivial

theorem plain_of_chain {memfs : Memfs} {inode : UInt32}
    (plain : ∀ both, Relation.ReflTransGen (Moves (chainBody w codedExit true))
      (.start memfs inode path, 0) both → LastIsPlain w both.1)
    (returned : Returns (chainBody w codedExit true) (.start memfs inode path, 0) (.inode st, count)) :
    st.isLnk = false := by
  obtain ⟨⟨last, reentries⟩, _, ⟨_, ends⟩, stopped⟩ :=
    @Returns.invariant _ _ _ _ _
      (fun both => Relation.ReflTransGen (Moves (chainBody w codedExit true))
        (.start memfs inode path, 0) both ∧ EndsPlain both.1) returned
      (fun both after holds moved => by
        refine ⟨holds.1.tail moved, ?_⟩
        obtain ⟨state, reentries⟩ := both
        rcases nested_cases moved with ⟨reached, taken, same⟩ | ⟨found, taken, left⟩
        · cases same
          exact endsPlain_of_move (findMove_of_next taken) (plain _ holds.1)
        · obtain ⟨_, _, _, _, _, _, _, _, rfl⟩ := leaveInode_next left
          trivial)
      ⟨.refl, trivial⟩
  rcases nested_cases stopped with ⟨after, _, same⟩ | ⟨found, taken, left⟩
  · cases same
  · cases findHalt_of_halt taken with
    | failed errno => cases left
    | inode ended =>
        cases left
        exact ends ended
    | relative leave relative => cases left
    | absolute leave absolute =>
        simp only [leaveInode, ↓reduceIte] at left
        split at left
        · cases left
        · cases left
        · split at left <;> cases left

/-! ## Both lookups -/

theorem returns_follow
    (plain : ∀ state, Relation.ReflTransGen (Moves (findBody w true)) start state →
      LastIsPlain w state) :
    Returns (findBody w false) start found ↔ Returns (findBody w true) start found :=
  returns_iff_of_agree fun state reached => findBody_follow (plain state reached)

/-- Where no link leads back into the memfs, both lookups come to the same. -/
theorem answers_follow
    (plain : ∀ state, Relation.ReflTransGen (Moves (findBody w true)) start state →
      LastIsPlain w state)
    (outside : ∀ lnk st, Returns (findBody w true) start (.ok (.linkAbsolute lnk st)) →
      isTebakoPath lnk = false) :
    Answers w false start result ↔ Answers w true start result := by
  refine exists_congr fun found => ?_
  rw [returns_follow plain]
  refine and_congr_right fun returned => ?_
  rcases found with errno | (st | ⟨lnk, st⟩ | ⟨lnk, st⟩ | ⟨lnk, st⟩)
  · rfl
  · rfl
  · rfl
  · simp only [followAbs, outside lnk st returned, Bool.false_eq_true, ↓reduceIte]
  · rfl

/-- Without following, a link back into the memfs is taken for what is sought. -/
theorem answers_at_link
    (plain : ∀ state, Relation.ReflTransGen (Moves (findBody w true)) start state →
      LastIsPlain w state)
    (returned : Returns (findBody w true) start (.ok (.linkAbsolute lnk st)))
    (inside : isTebakoPath lnk = true) :
    Answers w false start result ↔ result = .ok (.inode st) := by
  have stopped : Answers w false start (.ok (.inode st)) :=
    ⟨_, (returns_follow plain).mpr returned, 0, by simp [followAbs, inside]⟩
  exact ⟨fun answers => answers.unique stopped, fun same => same ▸ stopped⟩

/-! ## `lstat` and `stat` -/

theorem findBody_on : findBody (w.on host) follow = findBody w follow := rfl

theorem dwarfsStat_iff (starts : Request.start w (.stat p) = .ok start) :
    (∃ fuel, dwarfsStat w fuel p follow = some found) ↔ Answers w follow start found := by
  have answers := @Request.run_iff w follow (.stat p) found
  rwa [starts] at answers

theorem PlainLast.rounds (plain : PlainLast w p) (starts : Request.start w (.stat p) = .ok start)
    (host : HostFiles) : ∀ state,
    Relation.ReflTransGen (Moves (findBody (w.on host) true)) start state →
      LastIsPlain (w.on host) state := by
  intro state reached
  rw [findBody_on] at reached
  exact plain start starts (state, 0) (nested_reaches reached)

/-- What is found without a look at the host is what the chain comes to. -/
theorem settled_of_nowhereBack (nowhere : NowhereBack w p)
    (starts : Request.start w (.stat p) = .ok start)
    (answers : Answers (w.on host) true start (.ok (.inode st))) :
    ∃ count, Returns (chainBody w codedExit true) (start, 0) (.inode st, count) := by
  have whole := answers
  obtain ⟨found, finished, fuel, ran⟩ := answers
  rw [findBody_on] at finished
  rcases found with errno | (other | ⟨lnk, other⟩ | ⟨lnk, other⟩ | ⟨lnk, other⟩)
  · cases ran
  · cases ran
    exact ⟨0, (returns_nested finished).mpr rfl⟩
  · cases ran
  · by_cases inside : isTebakoPath lnk = true
    · obtain ⟨count, returned⟩ := nowhere start starts lnk other finished inside
      have settled := (@answers_of_returns (w.on host) _ _ _ _ returned).2
      have same : answer (w.on host) (.inode other) count = .ok (.inode other) := by
        cases count <;> rfl
      rw [Nat.sub_zero, same] at settled
      cases settled.unique whole
      exact ⟨count, returned⟩
    · simp only [followAbs, inside, Bool.false_eq_true, ↓reduceIte] at ran
      cases ran
  · cases ran

theorem alike_of_nowhereBack (plain : PlainLast w p) (nowhere : NowhereBack w p)
    (host : HostFiles) (found : Except Errno Lookup) :
    (∃ fuel, dwarfsStat (w.on host) fuel p false = some found) ↔
      ∃ fuel, dwarfsStat (w.on host) fuel p true = some found := by
  have run (follow : Bool) := @Request.run_iff (w.on host) follow (.stat p) found
  cases starts : Request.start w (.stat p) with
  | error errno =>
      have same : Request.start (w.on host) (.stat p) = .error errno := starts
      simp only [same] at run
      exact (run false).trans (run true).symm
  | ok start =>
      have same : Request.start (w.on host) (.stat p) = .ok start := starts
      rw [dwarfsStat_iff same, dwarfsStat_iff same]
      by_cases back : ∃ lnk st, Returns (findBody w true) start (.ok (.linkAbsolute lnk st)) ∧
          isTebakoPath lnk = true
      · obtain ⟨lnk, st, returned, inside⟩ := back
        obtain ⟨count, settled⟩ := nowhere start starts lnk st returned inside
        have answers := (@answers_of_returns (w.on host) _ _ _ _ settled).2
        have found : answer (w.on host) (.inode st) count = .ok (.inode st) := by cases count <;> rfl
        rw [Nat.sub_zero, found] at answers
        rw [answers_at_link (plain.rounds starts host) returned inside]
        exact ⟨fun same => same ▸ answers, fun other => other.unique answers⟩
      · refine answers_follow (plain.rounds starts host) fun lnk st returned => ?_
        exact eq_false_of_ne_true fun inside => back ⟨lnk, st, returned, inside⟩

theorem exists_map_iff {α β : Type} {f : Nat → Option α} {g : α → β} {result : β} :
    (∃ fuel, (f fuel).map g = some result) ↔ ∃ found, (∃ fuel, f fuel = some found) ∧ g found = result := by
  simp only [Option.map_eq_some_iff]
  exact ⟨fun ⟨fuel, found, ran, same⟩ => ⟨found, ⟨fuel, ran⟩, same⟩,
    fun ⟨found, ⟨fuel, ran⟩, same⟩ => ⟨fuel, found, ran, same⟩⟩

theorem exists_comp_iff {α β γ : Type} {holds : α → Prop} {f : α → β} {g : β → γ} {result : γ} :
    (∃ middle, (∃ found, holds found ∧ f found = middle) ∧ g middle = result) ↔
      ∃ found, holds found ∧ g (f found) = result :=
  ⟨fun ⟨_, ⟨found, held, same⟩, last⟩ => ⟨found, held, same ▸ last⟩,
    fun ⟨found, held, last⟩ => ⟨_, ⟨found, held, rfl⟩, last⟩⟩

theorem tebakoStat_iff (known : toTebakoPath w.cwd path = some p) :
    (∃ fuel, tebakoStat (w.on host) fuel path = some result) ↔
      ∃ found, (∃ fuel, dwarfsStat (w.on host) fuel p true = some found) ∧
        (w.on host).statOutside found = result := by
  have known : toTebakoPath (w.on host).cwd path = some p := known
  simp only [tebakoStat, tebakoStatVia, known]
  exact exists_map_iff

theorem tebakoLstat_iff (known : toTebakoPath w.cwd path = some p) :
    (∃ fuel, tebakoLstat w host fuel path = some result) ↔
      ∃ found, (∃ fuel, dwarfsLstat (w.on host) fuel p = some found) ∧
        host.lstatOutside found = result := by
  simp only [tebakoLstat, known]
  exact exists_map_iff

/-- The host is asked about the same file. -/
theorem lstatOutside_eq (hostPlain : HostFiles.PlainLast host w p)
    (ran : ∃ fuel, dwarfsStat (w.on host) fuel p true = some found) :
    host.lstatOutside found = (w.on host).statOutside found := by
  rcases found with errno | (st | ⟨lnk, st⟩ | ⟨lnk, st⟩ | ⟨lnk, st⟩)
  · rfl
  · rfl
  · rfl
  · rfl
  · obtain ⟨fuel, ran⟩ := ran
    obtain ⟨start, starts, answers⟩ := @Request.started (w.on host) true (.stat p) fuel _ ran
    obtain ⟨finished, outside⟩ := answers_outside_iff.mp answers
    rw [findBody_on] at finished
    have leads : Returns (chainBody w codedExit true) (start, 0) (.outside lnk st, 0) := by
      refine (returns_nested finished).mpr ?_
      simp only [leaveInode, codedExit_eq_outside_iff.mpr outside]
      rfl
    have alike := hostPlain start starts lnk st 0 leads
    simp only [HostFiles.lstatOutside, World.statOutside, World.on, alike]

/-! ## Opening -/

theorem or_and_of_clear {flags flag mask : UInt32} (clear : flag &&& mask = 0) :
    (flags ||| flag) &&& mask = flags &&& mask := by
  have split : (flags ||| flag) &&& mask = (flags &&& mask) ||| (flag &&& mask) := by
    apply UInt32.toBitVec_inj.mp
    ext i
    simp [Bool.and_or_distrib_right]
  rw [split, clear, UInt32.or_zero]

theorem or_and_self (flags flag : UInt32) : (flags ||| flag) &&& flag = flag := by
  apply UInt32.toBitVec_inj.mp
  ext i
  simp only [UInt32.toBitVec_and, UInt32.toBitVec_or, BitVec.getElem_and, BitVec.getElem_or]
  cases flag.toBitVec[i] <;> simp

/-- `O_NOFOLLOW` makes a difference only at a link. -/
theorem openFound_nofollow {table : FdTable} {flags : UInt32} {dup : Int}
    (plain : ∀ st, found = .ok (.inode st) → st.isLnk = false) :
    table.openFound found (flags ||| oNofollow) dup = table.openFound found flags dup := by
  have write : (flags ||| oNofollow) &&& oWrite = flags &&& oWrite := or_and_of_clear (by decide)
  have directory : (flags ||| oNofollow) &&& oDirectory = flags &&& oDirectory :=
    or_and_of_clear (by decide)
  rcases found with errno | (st | ⟨lnk, st⟩ | ⟨lnk, st⟩ | ⟨lnk, st⟩)
  · simp only [FdTable.openFound, write]
  · simp only [FdTable.openFound, write, directory, plain st rfl, Bool.false_eq_true, false_and]
  · simp only [FdTable.openFound, write]
  · simp only [FdTable.openFound, write]
  · simp only [FdTable.openFound]

theorem open_iff {flags : UInt32} {dup : Int} {table : FdTable} {answer : OpenAnswer × FdTable} :
    (∃ fuel, FdTable.open w fuel p flags dup table = some answer) ↔
      ∃ found, (∃ fuel, dwarfsStat w fuel p (flags &&& oNofollow = 0) = some found) ∧
        table.openFound found flags dup = answer :=
  exists_map_iff

theorem plain_of_found (plain : PlainLast w p) (nowhere : NowhereBack w p)
    (ran : ∃ fuel, dwarfsStat (w.on host) fuel p true = some (.ok (.inode st))) :
    st.isLnk = false := by
  obtain ⟨fuel, ran⟩ := ran
  obtain ⟨start, starts, answers⟩ := @Request.started (w.on host) true (.stat p) fuel _ ran
  have starts : Request.start w (.stat p) = .ok start := starts
  obtain ⟨count, returned⟩ := settled_of_nowhereBack nowhere starts answers
  obtain ⟨index, memfs, inode, rest, rfl, _⟩ := Request.start_held starts
  exact plain_of_chain (plain _ starts) returned

theorem followsAlike_of_nowhereBack (known : toTebakoPath w.cwd path = some p)
    (plain : PlainLast w p) (nowhere : NowhereBack w p) : FollowsAlike w path p where
  stat host hostPlain result := by
    rw [tebakoLstat_iff known, tebakoStat_iff known]
    refine exists_congr fun found => ?_
    rw [← alike_of_nowhereBack plain nowhere host found]
    refine and_congr_right fun ran => ?_
    rw [lstatOutside_eq hostPlain ((alike_of_nowhereBack plain nowhere host found).mp ran)]
  redirected host lnk st := alike_of_nowhereBack plain nowhere host _
  opened host flags dup table answer clear := by
    have set : (flags ||| oNofollow) &&& oNofollow ≠ 0 := by
      rw [or_and_self]
      decide
    rw [open_iff, open_iff]
    simp only [set, clear, decide_true, decide_false]
    refine exists_congr fun found => ?_
    rw [alike_of_nowhereBack plain nowhere host found]
    refine and_congr_right fun ran => ?_
    rw [openFound_nofollow fun st same => plain_of_found plain nowhere (same ▸ ran)]

/-! ## A link back into the memfs -/

def deadHost : HostFiles where
  stat _ := .error .EACCES
  lstat _ := .error .EACCES

/-- With no host to look at, an inode is found where the chain comes to one. -/
theorem returns_of_deadHost {memfs : Memfs} {inode : UInt32}
    (answers : Answers (w.on deadHost) true (.start memfs inode path) (.ok (.inode st))) :
    ∃ count, Returns (chainBody w codedExit true) (.start memfs inode path, 0) (.inode st, count) := by
  obtain ⟨⟨outcome, count⟩, returned⟩ := halts_of_answers answers
  have same := (answers_of_returns returned).2.unique answers
  rw [Nat.sub_zero] at same
  refine ⟨count, ?_⟩
  cases outcome with
  | inode other =>
      have found : answer (w.on deadHost) (.inode other) count = .ok (.inode other) := by
        cases count <;> rfl
      cases found.symm.trans same
      exact returned
  | failed errno => cases count <;> cases same
  | relative lnk attributes => cases count <;> cases same
  | outside lnk attributes => cases count <;> cases same
  | lost lnk => cases count <;> cases same

theorem nowhereBack_of_followsAlike (known : toTebakoPath w.cwd path = some p)
    (plain : PlainLast w p) (alike : FollowsAlike w path p) : NowhereBack w p := by
  intro start starts lnk st returned inside
  have same : Request.start (w.on deadHost) (.stat p) = .ok start := starts
  have found : ∃ fuel, tebakoLstat w deadHost fuel path = some (.ok (.inode st)) := by
    rw [tebakoLstat_iff known]
    refine ⟨.ok (.inode st), (dwarfsStat_iff same).mpr ?_, rfl⟩
    exact (answers_at_link (plain.rounds starts deadHost) returned inside).mpr rfl
  have followed := (alike.stat deadHost (fun _ _ _ _ _ _ => rfl) _).mp found
  obtain ⟨other, ran, same'⟩ := (tebakoStat_iff known).mp followed
  have answers := (dwarfsStat_iff same).mp ran
  obtain ⟨index, memfs, inode, rest, rfl, _⟩ := Request.start_held starts
  rcases other with errno | (attributes | ⟨lnk, attributes⟩ | ⟨lnk, attributes⟩ | ⟨lnk, attributes⟩)
  · cases same'
  · cases same'
    exact returns_of_deadHost answers
  · cases same'
  · cases same'
  · cases same'

/-- On a path with a plain last name, `lstat` and `O_NOFOLLOW` make no
difference exactly when no link before it leads back into the memfs. -/
theorem followsAlike_iff (w : World) (path p : CString) (known : toTebakoPath w.cwd path = some p)
    (plain : PlainLast w p) : FollowsAlike w path p ↔ NowhereBack w p :=
  ⟨nowhereBack_of_followsAlike known plain, followsAlike_of_nowhereBack known plain⟩

/-- A directory `d` with a file `f` in it, and two links to the directory: `a`
by its name, `b` by its full path. -/
def twoLinks : Memfs := .ofEntries
  [⟨0, cStr ['d'], 0o040755, .empty⟩, ⟨1, cStr ['f'], 0o100644, .empty⟩,
    ⟨0, cStr ['a'], 0o120777, cStr ['d']⟩, ⟨0, cStr ['b'], 0o120777, belowMountPoint ['d']⟩]

def twoLinksWorld : World := .ofRoot twoLinks ∅ fun _ => .error .ENOENT

theorem twoLinks_root (path : CString) : LastIsPlain twoLinksWorld (.start twoLinks 0 path) := by
  intro pi st found stat
  have root : twoLinks.find 0 = some ⟨0⟩ := by rfl
  obtain rfl : ⟨0⟩ = pi := Option.some.inj (root.symm.trans found)
  obtain rfl : ⟨0, 0o040755, 0⟩ = st := Except.ok.inj stat
  rfl

theorem twoLinks_file : PlainName twoLinksWorld twoLinks ⟨1⟩ (cStr ['f']) := by
  refine ⟨by rfl, ?_⟩
  intro child st found stat
  have file : twoLinks.findChild 1 (cStr ['f']) = some ⟨2⟩ := by rfl
  obtain rfl : ⟨2⟩ = child := Option.some.inj (file.symm.trans found)
  obtain rfl : ⟨2, 0o100644, 0⟩ = st := Except.ok.inj stat
  rfl

/-- Any other name comes before the file. -/
theorem plain_before_file {memfs : Memfs} {pi : InodeView} {name : CString} :
    LastIsPlain twoLinksWorld (.walk memfs pi st [name, cStr ['f']]) :=
  fun _ last => absurd (last (cStr ['f']) (by simp)) (by decide)

theorem relative_link_followsAlike :
    FollowsAlike twoLinksWorld (belowMountPoint ['a', '/', 'f']) (belowMountPoint ['a', '/', 'f']) := by
  refine (followsAlike_iff _ _ _ (by decide) ?_).mpr ?_
  · intro start starts
    obtain rfl : FindState.start twoLinks 0 (cStr ['a', '/', 'f']) = start :=
      Except.ok.inj starts
    refine forall_reached_of_next (by rfl) (twoLinks_root _) ?_
    refine forall_reached_of_next (by rfl) plain_before_file ?_
    refine forall_reached_of_next (by rfl) plain_before_file ?_
    refine forall_reached_of_next (by rfl) (fun _ _ => twoLinks_file) ?_
    exact forall_reached_of_halt (by rfl) trivial
  · intro start starts lnk st returned
    obtain rfl : FindState.start twoLinks 0 (cStr ['a', '/', 'f']) = start :=
      Except.ok.inj starts
    have found : Returns (findBody twoLinksWorld true)
        (.start twoLinks 0 (cStr ['a', '/', 'f'])) (.ok (.inode ⟨2, 0o100644, 0⟩)) := ⟨9, by rfl⟩
    cases returned.unique found

/-- What `lstat` finds behind a link by full path is the link. -/
theorem absolute_link_not_followed : ¬ ∀ w path p, toTebakoPath w.cwd path = some p →
    PlainLast w p → FollowsAlike w path p := by
  intro always
  have plain : PlainLast twoLinksWorld (belowMountPoint ['b', '/', 'f']) := by
    intro start starts
    obtain rfl : FindState.start twoLinks 0 (cStr ['b', '/', 'f']) = start :=
      Except.ok.inj starts
    refine forall_reached_of_next (by rfl) (twoLinks_root _) ?_
    refine forall_reached_of_next (by rfl) plain_before_file ?_
    refine forall_reached_of_next (by rfl) (twoLinks_root _) ?_
    refine forall_reached_of_next (by rfl) plain_before_file ?_
    refine forall_reached_of_next (by rfl) (fun _ _ => twoLinks_file) ?_
    exact forall_reached_of_halt (by rfl) trivial
  have known : toTebakoPath twoLinksWorld.cwd (belowMountPoint ['b', '/', 'f']) =
      some (belowMountPoint ['b', '/', 'f']) := by decide
  have nowhere := nowhereBack_of_followsAlike known plain (always _ _ _ known plain)
  obtain ⟨count, settled⟩ := nowhere _ rfl (belowMountPoint ['d', '/', 'f']) ⟨4, 0o120777, 0⟩
    ⟨9, by rfl⟩ (by decide)
  have file : Returns (chainBody twoLinksWorld codedExit true)
      (.start twoLinks 0 (cStr ['b', '/', 'f']), 0) (.inode ⟨2, 0o100644, 0⟩, 1) := ⟨9, by rfl⟩
  cases settled.unique file

end Tebako
