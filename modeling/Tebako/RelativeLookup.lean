import Tebako.JoinedPath

namespace Tebako

open Data Data.Loop Data.LexicalPath

/-! Looking a path up from the inode of an open directory.

A descriptor holds the attributes of a directory, and the number among them is
all that is left of the path it was opened by. -/

/-- The lookup of a path, all links followed, comes by this state. -/
def ComesBy (w : World) (named : CString) (both : FindState × Nat) : Prop :=
  ∃ state, Request.start w (.stat named) = .ok state ∧
    Relation.ReflTransGen (Moves (chainBody w exitOf true)) (state, 0) both

/-- It ends at an inode of an image, with these attributes. -/
structure EndsAtDir (w : World) (named : CString) (memfs : Memfs) (pi : InodeView) (st : FileStat) (count : Nat) :
    Prop where
  held : ∃ index : UInt32, w.memfsTable[index]? = some memfs
  stat : memfs.getattr pi = .ok st
  ended : ∃ rest, ComesBy w named (.walk memfs pi st rest, count) ∧ ∀ name ∈ rest.head?, name.chars = []

/-- All links followed, `dir` resolves to the directory with these attributes,
after so many links back into the memfs, and by no mount point `.` or `..`; and
neither the joined path nor a path on its way is too long. -/
structure Joined (w : World) (dir r named : CString) (st : FileStat) (count : Nat) : Prop where
  directory : NamedInMemfs w.cwd dir named
  inner : Inner r
  isDir : st.isDir = true
  resolves : Resolves w (.stat named) (.inode st, count)
  images : w.RegularImages
  undotted : ∀ both, ComesBy w named both → Undotted w both.1
  fits : (named.join r).normal.chars.length ≤ tebakoPathLength
  whole : ∀ resolved, Resolves w (.stat (named.join r).normal) resolved →
    ∀ lnk, resolved.1 ≠ .lost lnk

/-- The number among the attributes leads back to the directory that `dir` ends
at; and if `.` is looked for there, it is no mount point. -/
structure JoinsAt (w : World) (dir r named : CString) (st : FileStat) (count : Nat) : Prop
    extends Joined w dir r named st count where
  identified : ∀ memfs pi, EndsAtDir w named memfs pi st count →
    w.memfsTable[getFsIndex st.ino.toUInt32.toUInt64]? = some memfs ∧ memfs.find st.ino.toUInt32 = some pi
  undottedHere : r.chars = dot → w.mountTable[(st.ino.toUInt32, dot)]? = none

variable {w : World} {dir r named : CString} {st : FileStat} {count first : Nat} {follow : Bool}
variable {memfs : Memfs} {pi : InodeView} {more : List CString} {last : List Path}
variable {state : FindState} {found result : Except Errno Lookup} {added : Addition}

/-! ## From the root directory -/

theorem returns_of_direct
    (returned : Returns (chainBody w codedExit true) (state, first) (.inode st, first)) :
    Returns (findBody w true) state (.ok (.inode st)) := by
  generalize begun : (state, first) = both at returned
  induction returned using Returns.rec_on generalizing state with
  | halt both stopped =>
      subst begun
      rcases nested_cases stopped with ⟨after, _, same⟩ | ⟨found, taken, left⟩
      · cases same
      · obtain ⟨rfl, _⟩ := leaveInode_inode left
        exact returns_of_halt taken
  | next both after moved rest ih =>
      subst begun
      rcases nested_cases moved with ⟨reached, taken, same⟩ | ⟨found, taken, left⟩
      · cases same
        exact (returns_iff_of_next taken).mpr (ih rfl)
      · obtain ⟨_, _, _, _, _, _, _, _, rfl⟩ := leaveInode_next left
        -- the count does not go down again
        have above := (answers_of_returns rest).1
        exact absurd above (Nat.not_succ_le_self first)

/-- The lookup of the joined path comes to the directory, with the names of `r` left. -/
theorem Joined.lookup (joins : Joined w dir r named st count) (direct : follow = true ∨ count = 0) :
    ∃ memfs pi more last, EndsAtDir w named memfs pi st count ∧ Arrives w joins.inner.addition st memfs pi more last ∧
      ∀ result, (∃ fuel, dwarfsStat w fuel (named.join r).normal follow = some result) ↔
        ∃ found, Answers w follow (.walk memfs pi st more) found ∧
          w.lookedAt (0 < count) found = result := by
  have joined := joins.directory.join joins.inner joins.fits
  have starts := @start_of_named w _ _ _ joins.directory
  have startsJoined := @start_of_named w _ _ _ joined
  have resolves := joins.resolves
  have whole := joins.whole
  cases held : w.memfsTable[(0 : UInt32)]? with
  | none =>
      simp only [Resolves, starts, held] at resolves
      cases resolves
  | some root =>
      simp only [held] at starts startsJoined
      simp only [Resolves, starts] at resolves
      simp only [Resolves, startsJoined] at whole
      have further : Further w joins.inner.addition _ _ :=
        .start ⟨0, held⟩ rfl (extends_joined joins.inner joins.directory)
      have undotted := fun both reached => joins.undotted both ⟨_, starts, reached⟩
      simp only [dwarfsStat_iff startsJoined]
      rcases direct with rfl | rfl
      · rcases arrives_chain joins.images (isLnk_of_isDir joins.isDir) resolves undotted further with
          ⟨lnk, reentries, lost⟩ | ⟨memfs, pi, rest, more, last, ends, ended, reached, arrived⟩
        · exact absurd rfl (whole _ lost lnk)
        · exact ⟨memfs, pi, more, last, ⟨arrived.held, arrived.stat, rest, ⟨_, starts, ends⟩, ended⟩, arrived,
            (answers_of_chain (coded_moves reached)).2⟩
      · have plain : ¬ Mistaken (.inode st) := by
          intro mistaken
          rcases mistaken with ⟨lnk, same⟩ | ⟨lnk, st, same, _⟩ <;> cases same
        have returned := returns_of_direct (returns_codedExit resolves plain)
        obtain ⟨memfs, pi, rest, more, last, ends, ended, reached, arrived⟩ :=
          @arrives_undotted _ w true follow st _ _ joins.images (isLnk_of_isDir joins.isDir) returned
            (fun state reached => undotted (state, 0) (nested_reaches reached)) further
        refine ⟨memfs, pi, more, last,
          ⟨arrived.held, arrived.stat, rest, ⟨_, starts, nested_reaches ends⟩, ended⟩, arrived, fun result => ?_⟩
        simp [answers_of_moves reached, World.lookedAt]

/-! ## From the directory -/

/-- A lookup from an inode that is found again by its number. -/
theorem relative_iff (there : w.memfsTable[getFsIndex st.ino.toUInt32.toUInt64]? = some memfs)
    (found : memfs.find st.ino.toUInt32 = some pi) (stat : memfs.getattr pi = .ok st) (isDir : st.isDir = true) :
    (∃ fuel, dwarfsInodeRelativeStat w fuel st.ino.toUInt32 r follow = some result) ↔
      Answers w follow (.walk memfs pi st r.components) result := by
  have entered : findBody w follow (.start memfs st.ino.toUInt32 r) =
      .next (.walk memfs pi st r.components) := by
    simp only [findBody, found, processInode_file stat (isLnk_of_isDir isDir)]
  simp only [dwarfsInodeRelativeStat, inodeMemfsCall, there]
  rw [← answers_start_iff]
  exact answers_of_moves (.single entered)

theorem answers_ended (ended : ∀ name ∈ more.head?, name.chars = []) :
    Answers w follow (.walk memfs pi st more) found ↔ found = .ok (.inode st) := by
  simp only [Answers, returns_iff_of_halt (findBody_ended ended), exists_eq_left, followAbs, Option.some.injEq,
    exists_const, eq_comm]

theorem Arrives.ended (arrived : Arrives w added st memfs pi more last) (none : added.names = []) :
    ∀ name ∈ more.head?, name.chars = [] := by
  intro name first
  have spelled := arrived.left
  obtain ⟨rest, rfl⟩ := List.head?_eq_some_iff.mp first
  rw [none, List.nil_append, List.map_cons] at spelled
  rcases arrived.ends with rfl | rfl
  · cases spelled
  · exact (List.cons.inj spelled).1

theorem eq_of_map_chars {left right : List CString}
    (same : left.map (·.chars) = right.map (·.chars)) : left = right :=
  List.map_injective_iff.mpr (fun _ _ => CString.ext) same

/-- What is left of the joined path is what a lookup from the directory begins with. -/
theorem Arrives.answers (inner : Inner r) (notDot : r.chars ≠ dot)
    (arrived : Arrives w inner.addition st memfs pi more last) :
    Answers w follow (.walk memfs pi st more) found ↔
      Answers w follow (.walk memfs pi st r.components) found := by
  have spelled := r.components_chars
  rw [components_of_relative inner.relative] at spelled
  have added : inner.addition.names = names r.chars := by rw [inner.addition_names, if_neg notDot]
  by_cases none : names r.chars = []
  · rw [answers_ended (arrived.ended (added.trans none)), answers_ended]
    intro name first
    rw [none] at spelled
    obtain ⟨rest, split⟩ := List.head?_eq_some_iff.mp first
    simp [split] at spelled
  · have same : more = r.components := by
      apply eq_of_map_chars
      have slash := arrived.slash (added ▸ none)
      rw [spelled, arrived.left, added]
      rcases arrived.ends with rfl | rfl
      · have kept : lastSegment r.chars ≠ [] := by simpa [Inner.addition] using slash
        simp [kept]
      · have ended : lastSegment r.chars = [] := by simpa [Inner.addition] using slash
        simp [none, ended]
    rw [same]

/-- `.` is looked for as a name, and there is none. -/
theorem Arrives.answers_dot (arrived : Arrives w added st memfs pi more last) (images : w.RegularImages)
    (undotted : w.mountTable[(st.ino.toUInt32, dot)]? = none) (here : r.chars = dot) :
    Answers w follow (.walk memfs pi st r.components) found ↔ found = .error .ENOENT := by
  have spelled := r.components_chars
  rw [here] at spelled
  obtain ⟨name, rest, split, same, _⟩ := List.map_eq_cons_iff.mp (spelled.trans rfl)
  rw [split]
  have number : st.ino.toUInt32 = memfs.reported pi := by
    rw [Memfs.getattr_ino arrived.stat]
    simp
  have free : Undotted w (.walk memfs pi st (name :: rest)) := by
    intro other first dots
    cases first
    rw [same, ← number]
    exact undotted
  have stopped : findBody w follow (.walk memfs pi st (name :: rest)) = .halt (.error .ENOENT) :=
    lost_of_undotted images arrived.held free (.inl same)
  simp only [Answers, returns_iff_of_halt stopped, exists_eq_left, followAbs, Option.some.injEq,
    exists_const, eq_comm]

/-- A lookup from the directory, and of the joined path: they differ by a look
at the host where the joined path leads out of the memfs after it has come back. -/
theorem JoinsAt.lookup_iff (joins : JoinsAt w dir r named st count)
    (direct : follow = true ∨ count = 0) (notDot : r.chars ≠ dot) :
    (∃ fuel, dwarfsStat w fuel (named.join r).normal follow = some result) ↔
      ∃ found, (∃ fuel, dwarfsInodeRelativeStat w fuel st.ino.toUInt32 r follow = some found) ∧
        w.lookedAt (0 < count) found = result := by
  obtain ⟨memfs, pi, more, last, ends, arrived, lookup⟩ := joins.lookup direct
  obtain ⟨there, known⟩ := joins.identified memfs pi ends
  rw [lookup]
  refine exists_congr fun found => and_congr_left fun _ => ?_
  rw [relative_iff there known arrived.stat joins.isDir, arrived.answers joins.inner notDot]

theorem Joined.joined_dot (joins : Joined w dir r named st count)
    (direct : follow = true ∨ count = 0) (here : r.chars = dot) :
    (∃ fuel, dwarfsStat w fuel (named.join r).normal follow = some result) ↔ result = .ok (.inode st) := by
  obtain ⟨memfs, pi, more, last, _, arrived, lookup⟩ := joins.lookup direct
  have none : joins.inner.addition.names = [] := by rw [joins.inner.addition_names, if_pos here]
  have looked : w.lookedAt (0 < count) (.ok (.inode st)) = .ok (.inode st) := by
    simp [World.lookedAt, World.statOutside]
  simp only [lookup, answers_ended (arrived.ended none), exists_eq_left, looked]
  exact eq_comm

theorem JoinsAt.relative_dot (joins : JoinsAt w dir r named st count) (here : r.chars = dot) :
    (∃ fuel, dwarfsInodeRelativeStat w fuel st.ino.toUInt32 r follow = some found) ↔
      found = .error .ENOENT := by
  obtain ⟨memfs, pi, more, last, ends, arrived, _⟩ := joins.lookup (.inl rfl)
  obtain ⟨there, known⟩ := joins.identified memfs pi ends
  rw [relative_iff there known arrived.stat joins.isDir,
    arrived.answers_dot joins.images (joins.undottedHere here) here]

/-- The directory may be searched, so that the lookup goes on from it. -/
theorem JoinsAt.access (joins : JoinsAt w dir r named st count) (searched : st.mode &&& 0o100 ≠ 0) :
    inodeMemfsCall w.memfsTable (fun memfs inode => memfs.inodeAccess inode xOk) st.ino.toUInt32 =
      .ok () := by
  obtain ⟨memfs, pi, more, last, ends, arrived, _⟩ := joins.lookup (.inl rfl)
  obtain ⟨there, found⟩ := joins.identified memfs pi ends
  simp only [inodeMemfsCall, there, Memfs.inodeAccess, found, arrived.stat, Except.bind, Memfs.iAccess]
  have noRead : xOk &&& rOk = 0 := by decide
  have noWrite : xOk &&& wOk = 0 := by decide
  simp [noRead, noWrite, searched]

/-! ## One image, given by its entries -/

variable {entries : List ImageEntry} {mountTable : MountTable} {host : CString → Except Errno FileStat}
variable {root : Memfs} {index : UInt32}

theorem ofRoot_memfs (there : (World.ofRoot root mountTable host).memfsTable[index]? = some memfs) :
    memfs = root := by
  simp only [World.ofRoot, Std.ExtTreeMap.getElem?_insertIfNew] at there
  split at there
  · exact (Option.some.inj there).symm
  · simp at there

theorem ofRoot_regularImages (regular : root.Regular) : (World.ofRoot root mountTable host).RegularImages :=
  fun _ _ there => ofRoot_memfs there ▸ regular

theorem undotted_of_unmounted {state : FindState} : Undotted (.ofRoot root ∅ host) state := by
  cases state with
  | start memfs inode path => trivial
  | walk memfs pi st rest =>
      intro name _ _
      simp [World.ofRoot]

theorem endsAtDir_ofRoot (ends : EndsAtDir (.ofRoot (.ofEntries entries) mountTable host) named memfs pi st count)
    (index : getFsIndex st.ino.toUInt32.toUInt64 = 0)
    (found : (Memfs.ofEntries entries).find st.ino.toUInt32 = some ⟨st.ino.toUInt32⟩) :
    (World.ofRoot (.ofEntries entries) mountTable host).memfsTable[getFsIndex st.ino.toUInt32.toUInt64]? =
        some memfs ∧ memfs.find st.ino.toUInt32 = some pi := by
  obtain ⟨other, there⟩ := ends.held
  obtain rfl := ofRoot_memfs there
  have number : (Memfs.ofEntries entries).reported pi = st.ino.toUInt32 := by
    rw [Memfs.getattr_ino ends.stat]
    simp
  rw [ofEntries_reported number, index, found]
  refine ⟨?_, rfl⟩
  rw [World.ofRoot, Std.ExtTreeMap.getElem?_insertIfNew, if_pos ⟨by simp, by simp⟩]

end Tebako
