import Tebako.Fstatat

namespace Tebako

open Data Data.Loop Data.LexicalPath

/-! Reading a link, and following it by hand.

`readlink` looks the path up without following its last name, and asks the image
for the link by the inode number that the lookup reports. -/

/-- What is in the image at the inode. -/
def Memfs.inodeReadlink (memfs : Memfs) (inode : UInt32) : Except Errno CString :=
  match memfs.find inode with
  | none => .error .ENOENT
  | some pi => memfs.fs.readlink pi

/-- `code` is a return code with no error number. -/
inductive ReadlinkAnswer where
  | text (link : CString)
  | linkOutside (lnk : CString)
  | failed (errno : Errno)
  | code (ret : Int)
deriving DecidableEq

/-- `memfs::readlink`, once the path has been looked up. -/
def readlinkFound (w : World) : Except Errno Lookup → ReadlinkAnswer
  | .error errno => .failed errno
  | .ok (.inode st) =>
      match inodeMemfsCall w.memfsTable (fun memfs inode => memfs.inodeReadlink inode) st.ino.toUInt32 with
      | .error errno => .failed errno
      | .ok link => .text link
  | .ok (.linkOutside lnk _) => .linkOutside lnk
  | .ok (.linkRelative _ _) => .code dwarfsSLinkRelative
  | .ok (.linkAbsolute _ _) => .code dwarfsSLinkAbsolute

def dwarfsReadlink (w : World) (fuel : Nat) (path : CString) : Option ReadlinkAnswer :=
  (dwarfsStat w fuel path false).map (readlinkFound w)

/-- `strncpy`: what is not taken by the text is filled up with zeros. -/
def strncpy (text : CString) (size : Nat) : Str :=
  text.chars.take size ++ List.replicate (size - text.chars.length) (Char.ofNat 0)

inductive ReadlinkOutcome where
  | stored (buf : Str) (ret : Nat)
  | host (path : CString)
  | failed (errno : Errno)
  | code (ret : Int)
deriving DecidableEq

def readlinkAnswered (bufsize : Nat) : ReadlinkAnswer → ReadlinkOutcome
  | .text link => .stored (strncpy link bufsize) (min link.chars.length bufsize)
  | .linkOutside lnk => .host lnk
  | .failed errno => .failed errno
  | .code ret => .code ret

def tebakoReadlink (w : World) (fuel : Nat) (path : Option CString) (bufsize : Nat) : Option ReadlinkOutcome :=
  match path with
  | none => some (.failed .ENOENT)
  | some path =>
      match toTebakoPath w.cwd path with
      | none => some (.host path)
      | some p => (dwarfsReadlink w fuel p).map (readlinkAnswered bufsize)

/-- A link in the directory with these attributes, at which the lookup of `named`
ends. The number of the link leads back to it. -/
structure LinkAt (w : World) (named : CString) (st : FileStat) (r target : CString) (link : FileStat) : Prop where
  single : r.components = [r]
  present : r.chars ≠ []
  notDot : r.chars ≠ dot
  text : target.chars ≠ []
  free : w.mountTable[(st.ino.toUInt32, r.chars)]? = none
  entry : ∀ memfs pi, EndsAtDir w named memfs pi st 0 → ∃ child,
    memfs.findChild st.ino.toUInt32 r = some child ∧ memfs.getattr child = .ok link ∧
    memfs.fs.readlink child = .ok target ∧
    w.memfsTable[getFsIndex link.ino.toUInt32.toUInt64]? = some memfs ∧ memfs.find link.ino.toUInt32 = some child
  isLink : link.isLnk = true

variable {w : World} {dir r named target : CString} {st link : FileStat} {memfs : Memfs} {pi : InodeView}
variable {result found : Except Errno Lookup} {follow : Bool} {host : HostFiles}

/-! ## The directory -/

/-- A lookup ends at one directory. -/
theorem EndsAtDir.unique {other : Memfs} {view : InodeView} {count : Nat}
    (ends : EndsAtDir w named memfs pi st count) (also : EndsAtDir w named other view st count) :
    memfs = other ∧ pi = view := by
  obtain ⟨rest, ⟨state, starts, reached⟩, ended⟩ := ends.ended
  obtain ⟨rest', ⟨state', starts', reached'⟩, ended'⟩ := also.ended
  obtain rfl := Except.ok.inj (starts.symm.trans starts')
  have same := halt_unique reached (nested_halt (findBody_ended ended)) reached'
    (nested_halt (findBody_ended ended'))
  cases same
  exact ⟨rfl, rfl⟩

theorem EndsAtDir.reported (ends : EndsAtDir w named memfs pi st 0) : memfs.reported pi = st.ino.toUInt32 := by
  rw [Memfs.getattr_ino ends.stat, UInt32.toUInt32_toUInt64]

theorem Joined.ends (joins : Joined w dir r named st 0) : ∃ memfs pi, EndsAtDir w named memfs pi st 0 := by
  obtain ⟨memfs, pi, _, _, ends, _⟩ := joins.lookup (.inr rfl : true = true ∨ 0 = 0)
  exact ⟨memfs, pi, ends⟩

/-- The lookup of the joined path goes on from the directory. -/
theorem Joined.walk_iff (joins : Joined w dir r named st 0) (notDot : r.chars ≠ dot)
    (ends : EndsAtDir w named memfs pi st 0) :
    (∃ fuel, dwarfsStat w fuel (named.join r).normal follow = some found) ↔
      Answers w follow (.walk memfs pi st r.components) found := by
  obtain ⟨other, view, more, last, also, arrived, lookup⟩ := joins.lookup (.inr rfl : follow = true ∨ 0 = 0)
  obtain ⟨rfl, rfl⟩ := ends.unique also
  rw [lookup, ← arrived.answers joins.inner notDot]
  simp [World.lookedAt]

/-! ## The attributes that a lookup has at hand -/

/-- No folder is mounted that has no name. -/
def World.FoldersNamed (w : World) : Prop :=
  ∀ (point : TebakoMountPoint) (target : CString), w.mountTable[point]? = some (.path target) → target.chars ≠ []

/-- The same place with the same names left, but with attributes of another inode. -/
inductive SamePlace : FindState → FindState → Prop where
  | same (state : FindState) : SamePlace state state
  | walk {memfs : Memfs} {pi : InodeView} {name : CString} (rest : List CString) (st other : FileStat)
      (present : name.chars ≠ []) : SamePlace (.walk memfs pi st (name :: rest)) (.walk memfs pi other (name :: rest))

/-- The same result, but for the attributes that come with a link. -/
inductive SameResult : Except Errno Lookup → Except Errno Lookup → Prop where
  | same (found : Except Errno Lookup) : SameResult found found
  | absolute (lnk : CString) (st other : FileStat) :
      SameResult (.ok (.linkAbsolute lnk st)) (.ok (.linkAbsolute lnk other))

theorem SamePlace.moves (folders : w.FoldersNamed)
    {left right after : FindState} (same : SamePlace left right) (moved : findBody w true left = .next after) :
    ∃ other, findBody w true right = .next other ∧ SamePlace after other := by
  cases same with
  | same state => exact ⟨after, moved, .same after⟩
  | walk rest st other present =>
      cases findMove_of_next moved with
      | child named free found passed => exact ⟨_, findBody_of_move (.child named free found passed), .same _⟩
      | relativeLink named free found linked relative =>
          exact ⟨_, findBody_of_move (.relativeLink named free found linked relative), .same _⟩
      | @relativeMount memfs pi st name target rest named mount relative =>
          refine ⟨_, findBody_of_move (.relativeMount named mount relative), ?_⟩
          have head := processLink_head relative (.inl (folders _ target mount))
          cases split : (processLink target rest).components with
          | nil => exact absurd (by simp [split]) head
          | cons first later =>
              refine .walk later _ _ fun empty => head ?_
              intro name member
              rw [split] at member
              cases member
              exact empty
      | memfsMount named mount held => exact ⟨_, findBody_of_move (.memfsMount named mount held), .same _⟩

theorem SamePlace.halts {left right : FindState} {last : Except Errno Lookup} (same : SamePlace left right)
    (stopped : findBody w true left = .halt last) :
    ∃ other, findBody w true right = .halt other ∧ SameResult last other := by
  cases same with
  | same state => exact ⟨last, stopped, .same last⟩
  | @walk memfs pi name rest st other present =>
      simp only [findBody, present, ↓reduceIte] at stopped ⊢
      cases mount : w.mountTable[(memfs.reported pi, name.chars)]? with
      | none =>
          simp only [mount] at stopped ⊢
          exact ⟨last, stopped, .same last⟩
      | some target =>
          cases target with
          | memfs index =>
              simp only [mount] at stopped ⊢
              exact ⟨last, stopped, .same last⟩
          | path target =>
              simp only [mount, reparse] at stopped ⊢
              split at stopped
              · rename_i absolute
                cases stopped
                exact ⟨_, by rw [if_pos absolute], .absolute _ st other⟩
              · cases stopped

theorem SameResult.followed {left right : Except Errno Lookup} (same : SameResult left right)
    (ran : ∃ fuel, followAbs w (findInodeAbs w fuel) true left = some result) :
    ∃ other, (∃ fuel, followAbs w (findInodeAbs w fuel) true right = some other) ∧
      w.statOutside other = w.statOutside result := by
  cases same with
  | same found => exact ⟨result, ran, rfl⟩
  | absolute lnk st other =>
      obtain ⟨fuel, ran⟩ := ran
      simp only [followAbs, ↓reduceIte] at ran ⊢
      by_cases inside : isTebakoPath lnk = true
      · simp only [inside, ↓reduceIte] at ran ⊢
        exact ⟨result, ⟨fuel, ran⟩, rfl⟩
      · simp only [inside, Bool.false_eq_true, ↓reduceIte] at ran ⊢
        cases ran
        exact ⟨_, ⟨fuel, rfl⟩, rfl⟩

/-- With other attributes at hand, the host is looked at all the same. -/
theorem answers_samePlace (folders : w.FoldersNamed)
    {left right : FindState} (same : SamePlace left right) (answers : Answers w true left result) :
    ∃ other, Answers w true right other ∧ w.statOutside other = w.statOutside result := by
  obtain ⟨found, returned, ran⟩ := answers
  obtain ⟨twin, returns, agrees⟩ := returned.related (fun same moved => same.moves folders moved)
    (fun same stopped => same.halts stopped) same
  obtain ⟨other, ran, alike⟩ := agrees.followed ran
  exact ⟨other, ⟨twin, returns, ran⟩, alike⟩

/-! ## The link in its directory -/

theorem Joined.lstat_link (joins : Joined w dir r named st 0) (linked : LinkAt w named st r target link) :
    ∃ fuel, dwarfsStat w fuel (named.join r).normal false = some (.ok (.inode link)) := by
  obtain ⟨memfs, pi, ends⟩ := joins.ends
  obtain ⟨child, found, stat, _⟩ := linked.entry memfs pi ends
  obtain ⟨left, passed, last⟩ := @processInode_last memfs child link r stat
  rw [← ends.reported] at found
  have free : w.mountTable[(memfs.reported pi, r.chars)]? = none := by rw [ends.reported, linked.free]
  have moved : findBody w false (.walk memfs pi st [r]) = .next (.walk memfs child link left.tail) :=
    findBody_of_move (.child linked.present free found passed)
  have answers : Answers w false (.walk memfs pi st r.components) (.ok (.inode link)) := by
    rw [linked.single]
    apply answers_of_next moved
    rw [last]
    exact answers_of_halt rfl ⟨0, rfl⟩
  exact (joins.walk_iff linked.notDot ends).mpr answers

theorem Joined.readlink (joins : Joined w dir r named st 0) (linked : LinkAt w named st r target link) :
    ∃ enough, ∀ fuel ≥ enough, dwarfsReadlink w fuel (named.join r).normal = some (.text target) := by
  obtain ⟨enough, ran⟩ := joins.lstat_link linked
  obtain ⟨memfs, pi, ends⟩ := joins.ends
  obtain ⟨child, _, _, read, there, known⟩ := linked.entry memfs pi ends
  refine ⟨enough, fun fuel more => ?_⟩
  simp only [dwarfsReadlink, dwarfsStat_mono more ran, Option.map_some, readlinkFound, inodeMemfsCall, there,
    Memfs.inodeReadlink, known, read]

theorem Joined.stat_iff (joins : Joined w dir r named st 0) (notDot : r.chars ≠ dot)
    (ends : EndsAtDir w named memfs pi st 0) :
    (∃ fuel, tebakoStat w fuel (dir.join r) = some result) ↔
      ∃ found, Answers w true (.walk memfs pi st r.components) found ∧ w.statOutside found = result := by
  have known : toTebakoPath w.cwd (dir.join r) = some (named.join r).normal :=
    (joins.directory.join joins.inner joins.fits).known
  have stats := @tebakoStat_iff w ⟨w.hostStat, w.hostStat⟩ (dir.join r) (named.join r).normal result known
  rw [show w.on ⟨w.hostStat, w.hostStat⟩ = w from rfl] at stats
  rw [stats]
  exact exists_congr fun found => and_congr_left fun _ => joins.walk_iff notDot ends

/-- The place that the lookup of the link goes on from. -/
theorem LinkAt.body (linked : LinkAt w named st r target link) (ends : EndsAtDir w named memfs pi st 0)
    (normal : target.normal = target) : findBody w true (.walk memfs pi st [r]) = reparse memfs pi link target := by
  obtain ⟨child, found, stat, read, _⟩ := linked.entry memfs pi ends
  have followed := @processInode_followed true memfs child link [r] target stat linked.isLink read (.inr rfl)
  have text : processLink target [r].tail = target := normal
  rw [text] at followed
  rw [← ends.reported] at found
  have free : w.mountTable[(memfs.reported pi, r.chars)]? = none := by rw [ends.reported, linked.free]
  simp only [findBody, linked.present, free, found, followed, ↓reduceIte]

theorem Joined.stat_relative (joins : Joined w dir r named st 0) (linked : LinkAt w named st r target link)
    (folders : w.FoldersNamed) (next : Joined w dir target named st 0) (elsewhere : target.chars ≠ dot) :
    (∃ fuel, tebakoStat w fuel (dir.join r) = some result) ↔
      ∃ fuel, tebakoStat w fuel (dir.join target) = some result := by
  obtain ⟨memfs, pi, ends⟩ := joins.ends
  have relative := next.inner.relative
  have moved : findBody w true (.walk memfs pi st [r]) = .next (.walk memfs pi link target.components) := by
    rw [linked.body ends next.inner.normal, reparse, relative]
    rfl
  rw [joins.stat_iff linked.notDot ends, next.stat_iff elsewhere ends, linked.single]
  have present := CString.components_ne_nil linked.text relative
  have head : ∀ name ∈ target.components.head?, name.chars ≠ [] := by
    intro name first
    obtain ⟨rest, split⟩ := List.head?_eq_some_iff.mp first
    exact CString.components_head relative split
  have onward : ∀ found, Answers w true (.walk memfs pi st [r]) found ↔
      Answers w true (.walk memfs pi link target.components) found :=
    fun found => answers_of_moves (.single moved)
  simp only [onward]
  cases split : target.components with
  | nil => exact absurd split present
  | cons name rest =>
      have named : name.chars ≠ [] := head name (by rw [split]; rfl)
      constructor
      · intro answered
        obtain ⟨found, answers, rfl⟩ := answered
        exact answers_samePlace folders (.walk rest link st named) answers
      · intro answered
        obtain ⟨found, answers, rfl⟩ := answered
        exact answers_samePlace folders (.walk rest st link named) answers

theorem statOutside_tebakoStat {fuel : Nat} {path : CString} {found : Except Errno Lookup}
    (ran : tebakoStat w fuel path = some found) : w.statOutside found = found := by
  simp only [tebakoStat, tebakoStatVia] at ran
  split at ran
  · cases ran
    cases w.hostStat path <;> rfl
  · obtain ⟨before, _, rfl⟩ := Option.map_eq_some_iff.mp ran
    exact statOutside_statOutside

theorem Joined.stat_absolute (joins : Joined w dir r named st 0) (linked : LinkAt w named st r target link)
    (absolute : isAbsolute target.chars = true) (normal : target.normal = target)
    (inside : isTebakoPath target = true) :
    (∃ fuel, tebakoStat w fuel (dir.join r) = some result) ↔ ∃ fuel, tebakoStat w fuel target = some result := by
  obtain ⟨memfs, pi, ends⟩ := joins.ends
  have stopped : findBody w true (.walk memfs pi st [r]) = .halt (.ok (.linkAbsolute target link)) := by
    rw [linked.body ends normal, reparse, absolute]
    rfl
  rw [joins.stat_iff linked.notDot ends, linked.single]
  simp only [Answers, returns_iff_of_halt stopped, exists_eq_left, followAbs, inside, ↓reduceIte]
  constructor
  · intro answered
    obtain ⟨found, ⟨fuel, ran⟩, rfl⟩ := answered
    have ran : tebakoStat w fuel target = some found := ran
    exact ⟨fuel, by rw [ran, statOutside_tebakoStat ran]⟩
  · intro answered
    obtain ⟨fuel, ran⟩ := answered
    exact ⟨result, ⟨fuel, ran⟩, statOutside_tebakoStat ran⟩

/-- `readlink` gives the link that the lookups follow: to look at what its text
names, from the directory that it is in, is to look at the link. -/
theorem readlink_by_hand (w : World) (dir r named target : CString) (st link : FileStat)
    (joins : Joined w dir r named st 0) (linked : LinkAt w named st r target link) (folders : w.FoldersNamed)
    (bufsize : Nat) :
    (∃ enough, ∀ fuel ≥ enough, tebakoReadlink w fuel (some (dir.join r)) bufsize =
        some (.stored (strncpy target bufsize) (min target.chars.length bufsize))) ∧
      (Joined w dir target named st 0 → target.chars ≠ dot → ∀ result,
        (∃ fuel, tebakoStat w fuel (dir.join r) = some result) ↔
          ∃ fuel, tebakoStat w fuel (dir.join target) = some result) ∧
      (isAbsolute target.chars = true → target.normal = target → isTebakoPath target = true → ∀ result,
        (∃ fuel, tebakoStat w fuel (dir.join r) = some result) ↔
          ∃ fuel, tebakoStat w fuel target = some result) := by
  refine ⟨?_, fun next elsewhere result => joins.stat_relative linked folders next elsewhere,
    fun absolute normal inside result => joins.stat_absolute linked absolute normal inside⟩
  obtain ⟨enough, ran⟩ := joins.readlink linked
  have known : toTebakoPath w.cwd (dir.join r) = some (named.join r).normal :=
    (joins.directory.join joins.inner joins.fits).known
  refine ⟨enough, fun fuel more => ?_⟩
  simp only [tebakoReadlink, known, ran fuel more, Option.map_some, readlinkAnswered]

/-- A root directory with a link `l` to the file `f` next to it. -/
def linkBesideWorld : World :=
  .ofRoot (.ofEntries [⟨0, cStr ['l'], 0o120777, cStr ['f']⟩, ⟨0, cStr ['f'], 0o100644, .empty⟩]) ∅ fun _ =>
    .ok hostFile

theorem linkBeside_joins {name : CString} {reached : FileStat} (inner : Inner name)
    (fits : (rootPath.join name).normal.chars.length ≤ tebakoPathLength)
    (returned : Resolves linkBesideWorld (.stat (rootPath.join name).normal) (.inode reached, 0)) :
    Joined linkBesideWorld rootPath name rootPath rootStat 0 where
  directory := ⟨by decide, by decide, by decide⟩
  inner := inner
  isDir := by decide
  resolves := ⟨9, by rfl⟩
  images := ofRoot_regularImages (regular_of_entries rfl (by decide))
  undotted _ _ := undotted_of_unmounted
  fits := fits
  whole other resolves := by
    rw [resolves.unique returned]
    simp

theorem linkBeside_link : LinkAt linkBesideWorld rootPath rootStat (cStr ['l']) (cStr ['f']) ⟨1, 0o120777, 0⟩ where
  single := by decide
  present := by decide
  notDot := by decide
  text := by decide
  free := by simp [linkBesideWorld, World.ofRoot]
  entry memfs pi ends := by
    obtain ⟨index, there⟩ := ends.held
    obtain rfl := ofRoot_memfs there
    exact ⟨⟨1⟩, by rfl, by rfl, by rfl, by rfl, by rfl⟩
  isLink := by decide

theorem link_beside_by_hand :
    (∃ enough, ∀ fuel ≥ enough, tebakoReadlink linkBesideWorld fuel (some (rootPath.join (cStr ['l']))) 3 =
        some (.stored ['f', Char.ofNat 0, Char.ofNat 0] 1)) ∧
      ∀ result, (∃ fuel, tebakoStat linkBesideWorld fuel (rootPath.join (cStr ['l'])) = some result) ↔
        ∃ fuel, tebakoStat linkBesideWorld fuel (rootPath.join (cStr ['f'])) = some result := by
  have inLink : Joined linkBesideWorld rootPath (cStr ['l']) rootPath rootStat 0 :=
    @linkBeside_joins _ ⟨2, 0o100644, 0⟩ ⟨by decide, by decide, by decide⟩ (by decide) ⟨9, by rfl⟩
  have inFile : Joined linkBesideWorld rootPath (cStr ['f']) rootPath rootStat 0 :=
    @linkBeside_joins _ ⟨2, 0o100644, 0⟩ ⟨by decide, by decide, by decide⟩ (by decide) ⟨9, by rfl⟩
  have folders : linkBesideWorld.FoldersNamed := by
    intro point target mounted
    simp [linkBesideWorld, World.ofRoot] at mounted
  obtain ⟨read, beside, _⟩ := readlink_by_hand linkBesideWorld rootPath (cStr ['l']) rootPath (cStr ['f'])
    rootStat ⟨1, 0o120777, 0⟩ inLink linkBeside_link folders 3
  exact ⟨read, beside inFile (by decide)⟩

end Tebako
