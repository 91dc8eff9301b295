import Tebako.Data.Substitution
import Tebako.RelativeLookup

namespace Tebako

open Data Data.Loop Data.LexicalPath
open Data.Substitution (Look)

/-! When the lookup of a path comes to an end.

Neither `find_inode` nor the functions that it is called from count the links
and mount points they replace by their targets. The lookup ends where none of
them comes by itself while its own target is looked up. -/

/-- Where a name is looked up: at an inode of an image, or outside of them all. -/
inductive Place where
  | host
  | inode (index : UInt32) (pi : InodeView)
deriving DecidableEq

def Place.rooted : Place → Bool
  | .host => true
  | .inode _ _ => false

/-- The names of a target, from the place it is met in or from outside. -/
def standsFor (place : Place) (target : CString) : Look Place Path :=
  let base := if isAbsolute target.chars then .host else place
  .replaced base (collapse base.rooted (names target.chars))

namespace World

variable (w : World)

def enter (index : UInt32) : Look Place Path :=
  match w.memfsTable[index]? with
  | none => .missing
  | some memfs =>
      match memfs.find memfs.dwarfsRootInode with
      | none => .missing
      | some root =>
          match memfs.getattr root with
          | .error _ => .missing
          | .ok _ => .found (.inode index root)

/-- What a name leads to, or which names it stands for. -/
def lookUp : Place → Path → Look Place Path
  | .host, name => if name = tebakoMountPointName then w.enter 0 else .missing
  | .inode index pi, name =>
      match w.memfsTable[index]? with
      | none => .missing
      | some memfs =>
          match w.mountTable[(memfs.reported pi, name)]? with
          | some (.path target) => standsFor (.inode index pi) target
          | some (.memfs mounted) => w.enter mounted
          | none =>
              if Char.ofNat 0 ∈ name then .missing
              else
                match memfs.findChild (memfs.reported pi) (cStr name) with
                | none => .missing
                | some child =>
                    match memfs.getattr child with
                    | .error _ => .missing
                    | .ok st =>
                        if st.isLnk then
                          match memfs.fs.readlink child with
                          | .error _ => .missing
                          | .ok target => standsFor (.inode index pi) target
                        else .found (.inode index child)

/-- The names as they stand, up to the first one that is replaced. Its target
and the names left after it are put into their normal form together. -/
def firstReplaced : Place → List Path → Option (Place × List Path)
  | _, [] => none
  | place, name :: rest =>
      match w.lookUp place name with
      | .missing => none
      | .found next => firstReplaced next rest
      | .replaced base target => some (base, collapse base.rooted (target ++ rest))

/-- The first replacement in the lookup of a path. An inode that it starts from
may itself be an absolute link, and stands for the first name then. -/
def replacedFirst (index startFrom : UInt32) (path : CString) : Option (Place × List Path) :=
  let spelled := (LexicalPath.components path.chars).filter (· ≠ [])
  match w.memfsTable[index]? with
  | none => none
  | some memfs =>
      match memfs.find startFrom with
      | none => none
      | some pi =>
          match memfs.getattr pi with
          | .error _ => none
          | .ok st =>
              if st.isLnk then
                match memfs.fs.readlink pi with
                | .error _ => none
                | .ok target =>
                    if isAbsolute target.chars then
                      some (.host, collapse true (names target.chars ++ spelled.tail))
                    else none
              else w.firstReplaced (.inode index pi) spelled

/-- From the first replacement on, the lookup comes by no link or mount point
that it comes by again where its own target is looked up. -/
def Unwinds (index startFrom : UInt32) (path : CString) : Prop :=
  ∀ start ∈ w.replacedFirst index startFrom path, ∀ entry,
    Substitution.ComesBy w.lookUp start entry → ¬ Substitution.Within w.lookUp entry entry

/-- An absolute path whose first name begins like the mount point leads to it or
below it, and fits a `tebako_path_t`, with a separator at its end too. In an image,
the name that comes next is no mount point `.` or `..`; `.` comes next where no name
of a target is left. -/
def Unmistaken : Place × List Path → Prop
  | (.host, list) => ∀ first ∈ list.head?, tebakoMountPointName <+: first →
      first = tebakoMountPointName ∧ (fromRoot list).length < tebakoPathLength
  | (.inode index pi, list) => ∀ memfs, w.memfsTable[index]? = some memfs →
      list.headD dot = dot ∨ list.headD dot = dotDot →
      w.mountTable[(memfs.reported pi, list.headD dot)]? = none

/-- From the first replacement on, nothing is taken for something else. -/
def Plainly (index startFrom : UInt32) (path : CString) : Prop :=
  ∀ start ∈ w.replacedFirst index startFrom path, ∀ reached,
    Substitution.Reaches w.lookUp start reached → w.Unmistaken reached

end World

/-- The lookup is at this place, with these names left. -/
inductive At (w : World) (front : List Path) : FindState × Nat → Place → Prop where
  | intro {memfs : Memfs} {index : UInt32} {pi : InodeView} {st : FileStat} {rest : List CString}
      {count : Nat} {ending : List Path} (held : w.memfsTable[index]? = some memfs) (ends : Ending ending)
      (spelled : rest.map (·.chars) = front ++ ending) :
      At w front (.walk memfs pi st rest, count) (.inode index pi)

/-- The names of a path are those of its normal form, where nothing may be left
but `.`. -/
def Shown (front names : List Path) : Prop :=
  (front = [dot] ∧ names = []) ∨
    (front = names ∧ (names.head? = some dotDot ∨ ∀ name ∈ names, Plain name))

/-- The lookup and the replacement of names by names have come to the same place. -/
def Along (w : World) (both : FindState × Nat) (target : Place × List Path) : Prop :=
  ∃ front, At w front both target.1 ∧ Named front ∧ Shown front target.2

def Follows (w : World) (both : FindState × Nat) (target : Place × List Path) : Prop :=
  Halts (chainBody w codedExit true) both ∧ Halts (Substitution.body w.lookUp) target ∨
    ∃ after reached, Relation.TransGen (Moves (chainBody w codedExit true)) both after ∧
      Relation.ReflTransGen (Moves (Substitution.body w.lookUp)) target reached ∧ Along w after reached

/-- The lookup does with a name what is found when it is looked up. -/
def Takes (w : World) (both : FindState × Nat) (front : List Path) : Look Place Path → Prop
  | .missing => Halts (chainBody w codedExit true) both
  | .found next => ∃ after, Relation.TransGen (Moves (chainBody w codedExit true)) both after ∧ At w front after next
  | .replaced base target => Follows w both (base, collapse base.rooted (target ++ front))

variable {w : World} {memfs : Memfs} {index startFrom : UInt32} {pi : InodeView} {st : FileStat}
variable {state : FindState} {both : FindState × Nat} {place next base : Place} {count : Nat}
variable {front ending target : List Path} {name : Path} {rest : List CString} {text lnk path : CString}

/-! ## Behind a link -/

theorem components_joined (named : Named front) (ends : Ending ending)
    (split : rest.map (·.chars) = front ++ ending) (relative : isAbsolute text.chars = false) :
    ∃ shown last, components (processLink text rest).chars = shown ++ last ∧ Ending last ∧ Named shown ∧
      Shown shown (collapse false (names text.chars ++ front)) := by
  obtain ⟨joined, _⟩ := @names_joined _ _ _ text named ends split
  have stays := (CString.isAbsolute_foldl_join (clean_of_named named ends split)).trans relative
  rw [processLink, CString.normal_chars, ← joined]
  by_cases empty : (rest.foldl CString.join text).chars = []
  · rw [empty]
    exact ⟨[], [], by decide, .inl rfl, by simp [Named], .inr ⟨by decide, .inr (by decide)⟩⟩
  · rw [components_lexicallyNormal empty stays]
    by_cases none : collapse false (names (rest.foldl CString.join text).chars) = []
    · refine ⟨[dot], [], by rw [if_pos none]; rfl, .inl rfl, ?_, .inl ⟨rfl, none⟩⟩
      intro name member
      rw [List.mem_singleton.mp member]
      decide
    · rw [if_neg none]
      exact ⟨_, _, rfl, ending_ite, named_collapse (named_names _), .inr ⟨rfl, collapse_upOrPlain _⟩⟩

theorem outline_joined (named : Named front) (ends : Ending ending)
    (split : rest.map (·.chars) = front ++ ending) (absolute : isAbsolute text.chars = true) :
    isAbsolute (rest.foldl CString.join text).chars = true ∧
      (outline (rest.foldl CString.join text).chars).names =
        collapse true (names text.chars ++ front) := by
  have stays := (CString.isAbsolute_foldl_join (clean_of_named named ends split)).trans absolute
  refine ⟨stays, ?_⟩
  rw [outline, stays, (@names_joined _ _ _ text named ends split).1]

/-! ## What the code does at a name -/

theorem ended_of_halt {found : Except Errno Lookup} (stopped : findBody w true state = .halt found)
    (ends : ∀ lnk st, found ≠ .ok (.linkAbsolute lnk st)) :
    ∃ result, chainBody w codedExit true (state, count) = .halt result := by
  have here : chainBody w codedExit true (state, count) = leaveInode w codedExit true count found :=
    nested_halt stopped
  rcases found with errno | (st | ⟨lnk, st⟩ | ⟨lnk, st⟩ | ⟨lnk, st⟩)
  · exact ⟨_, here⟩
  · exact ⟨_, here⟩
  · exact ⟨_, here⟩
  · exact absurd rfl (ends lnk st)
  · exact ⟨_, here⟩

theorem halts_of_halt (found : Except Errno Lookup) (stopped : findBody w true state = .halt found)
    (ends : ∀ lnk st, found ≠ .ok (.linkAbsolute lnk st)) :
    Halts (chainBody w codedExit true) (state, count) := by
  obtain ⟨result, ended⟩ := @ended_of_halt w state count found stopped ends
  exact ⟨result, returns_of_halt ended⟩

theorem moves_of_next {after : FindState} (moved : findBody w true state = .next after) :
    Moves (chainBody w codedExit true) (state, count) (after, count) :=
  nested_next moved

theorem processInode_unknown {errno : Errno} (stat : memfs.getattr pi = .error errno) :
    memfs.processInode pi true rest = .error errno := by
  simp only [Memfs.processInode, stat]
  rfl

theorem processInode_unread {errno : Errno} (stat : memfs.getattr pi = .ok st) (link : st.isLnk = true)
    (read : memfs.fs.readlink pi = .error errno) : memfs.processInode pi true rest = .error errno := by
  simp only [Memfs.processInode, Bind.bind, Except.bind, stat, link, read, or_true, ↓reduceIte]

/-- An image is entered at its root directory. -/
theorem entered_cases (held : w.memfsTable[index]? = some memfs) (images : w.RegularImages) :
    (w.enter index = .missing ∧
        Halts (chainBody w codedExit true) (.start memfs memfs.dwarfsRootInode path, count)) ∨
      ∃ root st, w.enter index = .found (.inode index root) ∧
        Moves (chainBody w codedExit true) (.start memfs memfs.dwarfsRootInode path, count)
          (.walk memfs root st path.components, count) := by
  cases found : memfs.find memfs.dwarfsRootInode with
  | none =>
      refine .inl ⟨by simp only [World.enter, held, found], ?_⟩
      exact halts_of_halt (.error .ENOENT) (by simp only [findBody, found]) (by simp)
  | some root =>
      cases stat : memfs.getattr root with
      | error errno =>
          refine .inl ⟨by simp only [World.enter, held, found, stat], ?_⟩
          have failed := @processInode_unknown memfs root path.components errno stat
          exact halts_of_halt (.error errno) (by simp only [findBody, found, failed]) (by simp)
      | ok st =>
          have file := images.root ⟨index, held⟩ rfl found stat
          refine .inr ⟨root, st, by simp only [World.enter, held, found, stat], moves_of_next ?_⟩
          exact findBody_of_move (.entered found (processInode_file stat file))

theorem leaves_of_halt (stopped : findBody w true state = .halt (.ok (.linkAbsolute lnk st))) :
    chainBody w codedExit true (state, count) =
      leaveInode w codedExit true count (.ok (.linkAbsolute lnk st)) := nested_halt stopped

/-- An absolute link back goes on in the root image. -/
theorem follows_back (images : w.RegularImages)
    (stopped : findBody w true state = .halt (.ok (.linkAbsolute lnk st))) (exits : codedExit lnk = .inside path)
    (spelled : components path.chars = front ++ ending) (ends : Ending ending) (named : Named front)
    (plain : ∀ name ∈ front, Plain name) : Follows w (state, count) (.host, tebakoMountPointName :: front) := by
  have entersRoot : w.lookUp .host tebakoMountPointName = w.enter 0 := by
    simp only [World.lookUp, ↓reduceIte]
  cases held : w.memfsTable[(0 : UInt32)]? with
  | none =>
      have lost : w.enter 0 = .missing := by simp only [World.enter, held]
      refine .inl ⟨⟨(.failed .ENOENT, count), returns_of_halt ?_⟩, none, returns_of_halt ?_⟩
      · simp only [leaves_of_halt stopped, leaveInode, exits, held, ↓reduceIte]
      · simp only [Substitution.body, entersRoot, lost]
  | some root =>
      have back : Moves (chainBody w codedExit true) (state, count)
          (.start root root.dwarfsRootInode path, count + 1) := by
        simp only [Moves, leaves_of_halt stopped, leaveInode, exits, held, ↓reduceIte]
      rcases @entered_cases w root 0 (count + 1) path held images with ⟨lost, ended⟩ | ⟨pi, st, entered, moved⟩
      · refine .inl ⟨(halts_of_next back).mpr ended, none, returns_of_halt ?_⟩
        simp only [Substitution.body, entersRoot, lost]
      · have found := entersRoot.trans entered
        have arrived : At w front (.walk root pi st path.components, count + 1) (.inode 0 pi) :=
          .intro held ends (path.components_chars.trans spelled)
        exact .inr ⟨_, _, .head back (.single moved), .single (Substitution.moves_found found), front,
          arrived, named, .inr ⟨rfl, .inr plain⟩⟩

/-- The code tells paths of the memfs by their first characters. -/
theorem told_of_unmistaken (absolute : isAbsolute text.chars = true)
    (plainly : w.Unmistaken (.host, (outline text.chars).names)) (known : isTebakoPath text.normal = true) :
    Below tebakoMountPoint text.normal.chars ∧ text.normal.chars.length ≤ tebakoPathLength := by
  rw [isTebakoPath, List.isPrefixOf_iff_prefix, CString.normal_chars] at known
  obtain ⟨first, listed, begins⟩ := prefix_head mountPoint_nonempty mountPoint_clean absolute known
  obtain ⟨rfl, fits⟩ := plainly first listed begins
  refine ⟨(below_iff_head mountPoint_nonempty mountPoint_clean absolute).mpr listed, ?_⟩
  have present : (outline text.chars).names ≠ [] := by
    intro none
    rw [none] at listed
    cases listed
  rw [CString.normal_chars]
  rcases lexicallyNormal_fromRoot absolute present with same | same
  · rw [same]
    exact Nat.le_of_lt fits
  · rw [same, List.length_append]
    exact fits

/-- An absolute link or mount point. It leads into the root image if the first
name of its normal form is the mount point, and out of the memfs otherwise. -/
theorem follows_absolute (images : w.RegularImages)
    (plainly : w.Unmistaken (.host, collapse true (names text.chars ++ front)))
    (left : FindLeave w true state (processLink text rest) st) (absolute : isAbsolute text.chars = true)
    (named : Named front) (ends : Ending ending) (split : rest.map (·.chars) = front ++ ending) :
    Follows w (state, count) (.host, collapse true (names text.chars ++ front)) := by
  obtain ⟨stays, outlined⟩ := outline_joined named ends split absolute
  have normal : isAbsolute (processLink text rest).chars = true := by
    rw [processLink, CString.normal_chars, isAbsolute_lexicallyNormal, stays]
  have stopped := findBody_of_leave left normal
  have headed : Below tebakoMountPoint (processLink text rest).chars ↔ _ :=
    below_iff_head mountPoint_nonempty mountPoint_clean stays
  have told : isTebakoPath (processLink text rest) = true → Below tebakoMountPoint (processLink text rest).chars ∧
      (processLink text rest).chars.length ≤ tebakoPathLength := told_of_unmistaken stays (outlined ▸ plainly)
  rw [outlined] at headed
  by_cases below : Below tebakoMountPoint (processLink text rest).chars
  · obtain ⟨inner, listed⟩ := List.head?_eq_some_iff.mp (headed.mp below)
    have fits := (told (isTebakoPath_of_below below)).2
    have exits : codedExit (processLink text rest) =
        .inside ((processLink text rest).drop (tebakoMountPointLength + 1)) :=
      codedExit_of_inside (by simp only [exitOf, below, fits, ↓reduceIte]) left.normal
    have first := outlined.trans listed
    rw [listed]
    refine follows_back images stopped exits
      (components_below mountPoint_nonempty mountPoint_clean stays first) ending_ite (named_outline first) ?_
    exact fun name member => plain_of_mem_collapse (listed ▸ List.mem_cons_of_mem _ member)
  · have unknown : isTebakoPath (processLink text rest) = false :=
      eq_false_of_ne_true fun known => below (told known).1
    refine .inl ⟨⟨(.outside (processLink text rest) st, count), returns_of_halt ?_⟩, ?_⟩
    · simp only [leaves_of_halt stopped, leaveInode, codedExit_eq_outside_iff.mpr unknown]
    · cases listed : collapse true (names text.chars ++ front) with
      | nil => exact ⟨_, returns_of_halt rfl⟩
      | cons first inner =>
          have other : first ≠ tebakoMountPointName := by
            intro same
            exact below (headed.mpr (by rw [listed, same]; rfl))
          refine ⟨none, returns_of_halt ?_⟩
          simp only [Substitution.body, World.lookUp, other, ↓reduceIte]

/-- A link or mount point with any target. -/
theorem takes_text (images : w.RegularImages)
    (plainly : ∀ base target, standsFor (.inode index pi) text = .replaced base target →
      w.Unmistaken (base, collapse base.rooted (target ++ front)))
    (left : FindLeave w true state (processLink text rest) st)
    (taken : findBody w true state = reparse memfs pi st (processLink text rest))
    (held : w.memfsTable[index]? = some memfs)
    (named : Named front) (ends : Ending ending) (split : rest.map (·.chars) = front ++ ending) :
    Takes w (state, count) front (standsFor (.inode index pi) text) := by
  simp only [standsFor, Takes]
  rw [collapse_collapse_append]
  cases absolute : isAbsolute text.chars with
  | true =>
      have stands : standsFor (.inode index pi) text = .replaced .host (collapse true (names text.chars)) := by
        simp only [standsFor, absolute, ↓reduceIte, Place.rooted]
      have unmistaken := plainly _ _ stands
      simp only [Place.rooted, collapse_collapse_append] at unmistaken
      simp only [↓reduceIte, Place.rooted]
      exact follows_absolute images unmistaken left absolute named ends split
  | false =>
      simp only [Bool.false_eq_true, ↓reduceIte, Place.rooted]
      have stays : isAbsolute (processLink text rest).chars = false := by
        rw [processLink, CString.normal_chars, isAbsolute_lexicallyNormal,
          CString.isAbsolute_foldl_join (clean_of_named named ends split), absolute]
      obtain ⟨shown, last, spelled, ends, named, shows⟩ := components_joined named ends split absolute
      have moved : findBody w true state = .next (.walk memfs pi st (processLink text rest).components) := by
        simp only [taken, reparse, stays, Bool.false_eq_true, ↓reduceIte]
      exact .inr ⟨_, _, .single (moves_of_next moved), .refl, shown,
        .intro held ends ((CString.components_chars _).trans spelled), named, shows⟩

/-- A mounted image is looked up with the names that are left. -/
theorem takes_mounted (images : w.RegularImages) {other : UInt32} {first : CString} (present : first.chars ≠ [])
    (mount : w.mountTable[(memfs.reported pi, first.chars)]? = some (.memfs other))
    (named : Named front) (ends : Ending ending) (split : rest.map (·.chars) = front ++ ending) :
    Takes w (.walk memfs pi st (first :: rest), count) front (w.enter other) := by
  cases held : w.memfsTable[other]? with
  | none =>
      have lost : w.enter other = .missing := by simp only [World.enter, held]
      rw [lost]
      exact halts_of_halt (.error .ENOENT) (by simp only [findBody, present, ↓reduceIte, mount, held]) (by simp)
  | some mounted =>
      have moved : Moves (chainBody w codedExit true) (.walk memfs pi st (first :: rest), count)
          (.start mounted mounted.dwarfsRootInode (rest.foldl CString.join .empty), count) :=
        moves_of_next (findBody_of_move (.memfsMount present mount held))
      rcases @entered_cases w mounted other count (rest.foldl CString.join .empty) held images with
        ⟨lost, ended⟩ | ⟨root, seen, entered, enters⟩
      · rw [lost]
        exact (halts_of_next moved).mpr ended
      · rw [entered]
        exact ⟨_, .head moved (.single enters), .intro held ending_ite
          ((CString.components_chars _).trans (components_foldl_join named ends split))⟩

/-- A name that is no mount point is looked for in the image. -/
theorem takes_child (images : w.RegularImages) {first : CString}
    (plainly : ∀ base target, w.lookUp (.inode index pi) first.chars = .replaced base target →
      w.Unmistaken (base, collapse base.rooted (target ++ front))) (present : first.chars ≠ [])
    (mount : w.mountTable[(memfs.reported pi, first.chars)]? = none)
    (held : w.memfsTable[index]? = some memfs)
    (named : Named front) (ends : Ending ending) (split : rest.map (·.chars) = front ++ ending) :
    Takes w (.walk memfs pi st (first :: rest), count) front (w.lookUp (.inode index pi) first.chars) := by
  simp only [World.lookUp, held, mount, first.noNul, cStr_chars, ↓reduceIte] at plainly ⊢
  cases found : memfs.findChild (memfs.reported pi) first with
  | none =>
      exact halts_of_halt (.error .ENOENT) (by simp only [findBody, present, ↓reduceIte, mount, found]) (by simp)
  | some child =>
      cases stat : memfs.getattr child with
      | error errno =>
          have failed := @processInode_unknown memfs child (first :: rest) errno stat
          simp only [stat]
          refine halts_of_halt (.error errno) ?_ (by simp)
          simp only [findBody, present, ↓reduceIte, mount, found, failed]
      | ok seen =>
          cases link : seen.isLnk with
          | false =>
              have passed := @processInode_file true memfs child seen (first :: rest) stat link
              simp only [stat, link, Bool.false_eq_true, ↓reduceIte]
              exact ⟨_, .single (moves_of_next (findBody_of_move (.child present mount found passed))),
                .intro held ends split⟩
          | true =>
              cases read : memfs.fs.readlink child with
              | error errno =>
                  have failed := @processInode_unread memfs child seen (first :: rest) errno stat link read
                  simp only [stat, link, read, ↓reduceIte]
                  refine halts_of_halt (.error errno) ?_ (by simp)
                  simp only [findBody, present, ↓reduceIte, mount, found, failed]
              | ok text =>
                  have followed := @processInode_followed true memfs child seen (first :: rest) text stat link read
                    (.inr rfl)
                  simp only [found, stat, link, read, ↓reduceIte] at plainly ⊢
                  refine takes_text images plainly (.link present mount found followed) ?_ held named ends split
                  simp only [findBody, present, ↓reduceIte, mount, found, followed, List.tail_cons]

theorem At.step (images : w.RegularImages) (here : At w (name :: front) both place)
    (plainly : ∀ base target, w.lookUp place name = .replaced base target →
      w.Unmistaken (base, collapse base.rooted (target ++ front)))
    (present : name ≠ []) (named : Named front) : Takes w both front (w.lookUp place name) := by
  cases here with
  | @intro memfs index pi st rest count ending held ends spelled =>
      obtain ⟨first, rest, rfl, rfl, split⟩ := List.map_eq_cons_iff.mp spelled
      cases mount : w.mountTable[(memfs.reported pi, first.chars)]? with
      | none => exact takes_child images plainly present mount held named ends split
      | some there =>
          cases there with
          | path text =>
              simp only [World.lookUp, held, mount] at plainly ⊢
              refine takes_text images plainly (.mount present mount) ?_ held named ends split
              simp only [findBody, present, ↓reduceIte, mount]
          | memfs other =>
              simp only [World.lookUp, held, mount]
              exact takes_mounted images present mount named ends split

/-- Nothing is left of the path. -/
theorem At.halts (here : At w [] both place) : Halts (chainBody w codedExit true) both := by
  cases here with
  | @intro memfs index pi st rest count ending held ends spelled =>
      refine halts_of_halt (.ok (.inode st)) (findBody_ended ?_) (by simp)
      intro name first
      obtain ⟨later, rfl⟩ := List.head?_eq_some_iff.mp first
      rcases ends with rfl | rfl
      · cases spelled
      · exact (List.cons.inj spelled).1

/-- A name `.` or `..` is not there. -/
theorem At.dots (images : w.RegularImages) (plainly : w.Unmistaken (place, list))
    (here : At w (name :: front) both place) (next : list.headD dot = name) (dots : name = dot ∨ name = dotDot) :
    w.lookUp place name = .missing := by
  cases here with
  | @intro memfs index pi st rest count ending held ends spelled =>
      obtain ⟨first, rest, rfl, rfl, split⟩ := List.map_eq_cons_iff.mp spelled
      have free := plainly memfs held (next ▸ dots)
      rw [next] at free
      have absent := @(images index memfs held).dots (memfs.reported pi) first dots
      simp only [World.lookUp, held, free, first.noNul, cStr_chars, absent, ↓reduceIte]

theorem At.not_up (images : w.RegularImages) (plainly : w.Unmistaken (place, name :: front))
    (here : At w (name :: front) both place) (known : w.lookUp place name ≠ .missing) :
    (name :: front).head? ≠ some dotDot :=
  fun up => known (here.dots images plainly rfl (.inr (Option.some.inj up)))

/-! ## The two run along with each other -/

theorem enter_not_replaced : w.enter index ≠ .replaced base target := by
  unfold World.enter
  split
  · simp
  · split
    · simp
    · split <;> simp

theorem standsFor_collapsed (stands : standsFor place text = .replaced base target) :
    collapse base.rooted target = target := by
  simp only [standsFor, Look.replaced.injEq] at stands
  obtain ⟨rfl, rfl⟩ := stands
  exact collapse_collapse _ _

/-- Only mount points and links are replaced, by what their texts stand for. -/
theorem lookUp_replaced (replaced : w.lookUp place name = .replaced base target) :
    ∃ index pi memfs text, place = .inode index pi ∧ w.memfsTable[index]? = some memfs ∧
      standsFor place text = .replaced base target ∧
      (w.mountTable[(memfs.reported pi, name)]? = some (.path text) ∨
        Char.ofNat 0 ∉ name ∧ ∃ child, memfs.findChild (memfs.reported pi) (cStr name) = some child) := by
  cases place with
  | host =>
      simp only [World.lookUp] at replaced
      split at replaced
      · exact absurd replaced enter_not_replaced
      · cases replaced
  | inode index pi =>
      simp only [World.lookUp] at replaced
      split at replaced
      · cases replaced
      · rename_i memfs held
        split at replaced
        · rename_i text mount
          exact ⟨index, pi, memfs, text, rfl, held, replaced, .inl mount⟩
        · exact absurd replaced enter_not_replaced
        · split at replaced
          · cases replaced
          · rename_i noNul
            split at replaced
            · cases replaced
            · rename_i child found
              split at replaced
              · cases replaced
              · split at replaced
                · split at replaced
                  · cases replaced
                  · rename_i text _
                    exact ⟨index, pi, memfs, text, rfl, held, replaced, .inr ⟨noNul, child, found⟩⟩
                · cases replaced

theorem lookUp_collapsed (replaced : w.lookUp place name = .replaced base target) :
    collapse base.rooted target = target := by
  obtain ⟨_, _, _, _, _, _, stands, _⟩ := lookUp_replaced replaced
  exact standsFor_collapsed stands

theorem along_step (images : w.RegularImages) {state : Place × List Path} (along : Along w both state)
    (plainly : ∀ reached, Substitution.Reaches w.lookUp state reached → w.Unmistaken reached) :
    GoAlong (chainBody w codedExit true) (Substitution.body w.lookUp) (Along w) both state := by
  obtain ⟨place, names⟩ := state
  obtain ⟨front, here, named, shows⟩ := along
  rcases shows with ⟨rfl, rfl⟩ | ⟨rfl, shows⟩
  · have missing := here.dots images (plainly _ .refl) rfl (.inl rfl)
    have taken := here.step images (by simp [missing]) (by decide) (by simp [Named])
    rw [missing] at taken
    exact .inl ⟨taken, _, returns_of_halt rfl⟩
  · cases front with
    | nil => exact .inl ⟨here.halts, _, returns_of_halt rfl⟩
    | cons name front =>
        have present := (named name (by simp)).1
        have later : Named front := fun other member => named other (by simp [member])
        have up := here.not_up images (plainly _ .refl)
        cases looked : w.lookUp place name with
        | missing =>
            have taken := here.step images (by simp [looked]) present later
            rw [looked] at taken
            exact .inl ⟨taken, none, returns_of_halt (by simp only [Substitution.body, looked])⟩
        | found next =>
            have taken := here.step images (by simp [looked]) present later
            rw [looked] at taken
            obtain ⟨after, moved, arrived⟩ := taken
            have plain := shows.resolve_left (up (by simp [looked]))
            exact .inr ⟨after, _, moved, .single (Substitution.moves_found looked), front, arrived, later,
              .inr ⟨rfl, .inr fun other member => plain other (by simp [member])⟩⟩
        | replaced base target =>
            have plain := shows.resolve_left (up (by simp [looked]))
            have whole : collapse base.rooted (target ++ front) = target ++ front := by
              rw [collapse_append_plain fun other member => plain other (by simp [member]), lookUp_collapsed looked]
            have replaced : Moves (Substitution.body w.lookUp) (place, name :: front) (base, target ++ front) :=
              Substitution.moves_replaced looked
            have taken := here.step images (by simp [looked, whole, plainly _ (.single replaced)]) present later
            rw [looked] at taken
            simp only [Takes, whole] at taken
            rcases taken with ⟨ended, halts⟩ | ⟨after, reached, moved, further, along⟩
            · exact .inl ⟨ended, (halts_of_next replaced).mpr halts⟩
            · exact .inr ⟨after, reached, moved, .head' replaced further, along⟩

theorem halts_along (images : w.RegularImages) {state : Place × List Path} (along : Along w both state)
    (plainly : ∀ reached, Substitution.Reaches w.lookUp state reached → w.Unmistaken reached) :
    Halts (chainBody w codedExit true) both ↔ Halts (Substitution.body w.lookUp) state := by
  refine @halts_iff_along _ _ _ _ _ _ (fun both state => Along w both state ∧
    ∀ reached, Substitution.Reaches w.lookUp state reached → w.Unmistaken reached) _ _ ?_ ⟨along, plainly⟩
  intro both state kept
  obtain ⟨along, plainly⟩ := kept
  rcases along_step images along plainly with ended | ⟨after, reached, moved, further, along⟩
  · exact .inl ended
  · exact .inr ⟨after, reached, moved, further, along,
      fun later path => plainly later (further.to_reflTransGen.trans path)⟩

theorem halts_follows (images : w.RegularImages) {state : Place × List Path} (follows : Follows w both state)
    (plainly : ∀ reached, Substitution.Reaches w.lookUp state reached → w.Unmistaken reached) :
    Halts (chainBody w codedExit true) both ↔ Halts (Substitution.body w.lookUp) state := by
  rcases follows with ⟨ended, halts⟩ | ⟨after, reached, moved, further, along⟩
  · exact iff_of_true ended halts
  · rw [halts_of_reaches moved.to_reflTransGen, halts_of_reaches further]
    exact halts_along images along fun later path => plainly later (further.trans path)

/-! ## Up to the first replacement -/

/-- The induction is on the names of the path as they stand. -/
theorem halts_at (images : w.RegularImages) (here : At w front both place) (present : ∀ name ∈ front, name ≠ [])
    (named : Named front.tail)
    (plainly : ∀ start ∈ w.firstReplaced place front, ∀ reached, Substitution.Reaches w.lookUp start reached →
      w.Unmistaken reached) : Halts (chainBody w codedExit true) both ↔
      ∀ start ∈ w.firstReplaced place front, Halts (Substitution.body w.lookUp) start := by
  induction front generalizing both place with
  | nil => simp [World.firstReplaced, here.halts]
  | cons name front ih =>
      have taken := here.step images (fun base target looked =>
        plainly _ (by simp only [World.firstReplaced, looked]; rfl) _ .refl) (present name (by simp)) named
      cases looked : w.lookUp place name with
      | missing =>
          rw [looked] at taken
          simp only [World.firstReplaced, looked]
          exact iff_of_true taken (by simp)
      | found next =>
          rw [looked] at taken
          obtain ⟨after, moved, arrived⟩ := taken
          simp only [World.firstReplaced, looked] at plainly ⊢
          rw [halts_of_reaches moved.to_reflTransGen]
          exact ih arrived (fun other member => present other (by simp [member]))
            (fun other member => named other (List.mem_of_mem_tail member)) plainly
      | replaced base target =>
          rw [looked] at taken
          simp only [World.firstReplaced, looked, Option.mem_some_iff, forall_eq'] at plainly ⊢
          exact halts_follows images taken plainly

/-- The names of a path. The first of an absolute one is its root directory. -/
theorem components_spelled (path : CString) :
    ∃ front ending, components path.chars = front ++ ending ∧ Ending ending ∧
      (components path.chars).filter (· ≠ []) = front ∧ (∀ name ∈ front, name ≠ []) ∧ Named front.tail := by
  have listed : ∀ name ∈ (if isAbsolute path.chars then [['/']] else []) ++ names path.chars,
      name ≠ [] := by
    intro name member
    rcases List.mem_append.mp member with root | named
    · split at root
      · rw [List.mem_singleton.mp root]
        decide
      · cases root
    · exact (mem_names named).1
  refine ⟨_, _, rfl, ending_ite, ?_, listed, ?_⟩
  · have kept := List.filter_eq_self.mpr fun name member => decide_eq_true (listed name member)
    rw [LexicalPath.components, List.filter_append, kept]
    split <;> simp
  · split
    · exact named_names _
    · exact fun name member => named_names _ name (List.mem_of_mem_tail member)

theorem processInode_unfollowed (memfs : Memfs) (pi : InodeView) (rest : List CString) :
    memfs.processInode pi false rest = memfs.processInode pi true rest ∨
      rest.tail = [] ∧ ∃ st, memfs.processInode pi false rest = .ok (st, .passed []) := by
  cases stat : memfs.getattr pi with
  | error errno => simp [Memfs.processInode, Bind.bind, Except.bind, stat]
  | ok st =>
      cases link : st.isLnk with
      | false => simp [Memfs.processInode, Bind.bind, Except.bind, stat, link]
      | true =>
          by_cases last : rest.tail = []
          · right
            refine ⟨last, st, ?_⟩
            simp only [Memfs.processInode, Bind.bind, Except.bind, stat, link, last, ne_eq, not_true_eq_false,
              Bool.false_eq_true, or_self, ↓reduceIte]
            rfl
          · simp [Memfs.processInode, Bind.bind, Except.bind, stat, link, last]

/-- Where the last link is not followed, the lookup is at its end. -/
theorem findBody_unfollowed (w : World) (state : FindState) :
    findBody w false state = findBody w true state ∨
      ∃ memfs pi st, findBody w false state = .next (.walk memfs pi st []) := by
  cases state with
  | start memfs inode path =>
      cases found : memfs.find inode with
      | none => exact .inl (by simp only [findBody, found])
      | some pi =>
          rcases processInode_unfollowed memfs pi path.components with same | ⟨last, st, passed⟩
          · exact .inl (by simp only [findBody, found, same])
          · exact .inr ⟨memfs, pi, st, by simp only [findBody, found, passed]⟩
  | walk memfs pi st rest =>
      cases rest with
      | nil => exact .inl rfl
      | cons name rest =>
          by_cases named : name.chars = []
          · exact .inl (by simp only [findBody, named, ↓reduceIte])
          · cases mount : w.mountTable[(memfs.reported pi, name.chars)]? with
            | some there => cases there <;> exact .inl (by simp only [findBody, named, mount])
            | none =>
                cases found : memfs.findChild (memfs.reported pi) name with
                | none => exact .inl (by simp only [findBody, mount, found])
                | some child =>
                    rcases processInode_unfollowed memfs child (name :: rest) with same | ⟨last, seen, passed⟩
                    · exact .inl (by simp only [findBody, mount, found, same])
                    · right
                      refine ⟨memfs, child, seen, ?_⟩
                      simp only [findBody, named, ↓reduceIte, mount, found, passed, List.tail_nil]

/-- The induction over a finished lookup that follows the last link: where the
other one goes another way, it has come to the last name. -/
theorem halts_unfollowed (halts : Halts (findBody w true) state) : Halts (findBody w false) state := by
  obtain ⟨result, returned⟩ := halts
  induction returned using Returns.rec_on with
  | halt state stopped =>
      rcases findBody_unfollowed w state with same | ⟨memfs, pi, st, moved⟩
      · exact ⟨result, returns_of_halt (same.trans stopped)⟩
      · exact (halts_of_next moved).mpr ⟨_, returns_of_halt rfl⟩
  | next state after moved _ ih =>
      rcases findBody_unfollowed w state with same | ⟨memfs, pi, st, moved⟩
      · exact (halts_of_next (same.trans moved)).mpr ih
      · exact (halts_of_next moved).mpr ⟨_, returns_of_halt rfl⟩

theorem tail_spelled (ends : Ending ending) (listed : rest.map (·.chars) = front ++ ending) :
    ∃ last, Ending last ∧ rest.tail.map (·.chars) = front.tail ++ last := by
  rw [List.map_tail, listed]
  cases front with
  | nil =>
      refine ⟨[], .inl rfl, ?_⟩
      rcases ends with rfl | rfl <;> rfl
  | cons name front => exact ⟨ending, ends, rfl⟩

/-- A link that the lookup starts from stands for the first name, or is answered as it
is where it is relative. -/
theorem halts_start_link (images : w.RegularImages) (found : memfs.find startFrom = some pi)
    (stat : memfs.getattr pi = .ok st) (link : st.isLnk = true) (read : memfs.fs.readlink pi = .ok text)
    (listed : path.components.map (·.chars) = front ++ ending) (ends : Ending ending) (named : Named front.tail)
    (plainly : isAbsolute text.chars = true → ∀ reached,
      Substitution.Reaches w.lookUp (.host, collapse true (names text.chars ++ front.tail)) reached →
        w.Unmistaken reached) : Halts (chainBody w codedExit true) (.start memfs startFrom path, 0) ↔
      (isAbsolute text.chars = true →
        Halts (Substitution.body w.lookUp) (.host, collapse true (names text.chars ++ front.tail))) := by
  have followed := @processInode_followed true memfs pi st path.components text stat link read (.inr rfl)
  have left : FindLeave w true (.start memfs startFrom path) (processLink text path.components.tail) st :=
    .start found followed
  obtain ⟨last, endsLast, split⟩ := tail_spelled ends listed
  cases absolute : isAbsolute text.chars with
  | true =>
      simp only [absolute, forall_const] at plainly ⊢
      exact halts_follows images (follows_absolute images (plainly _ .refl) left absolute named endsLast split) plainly
  | false =>
      have stays : isAbsolute (processLink text path.components.tail).chars = false := by
        rw [processLink, CString.normal_chars, isAbsolute_lexicallyNormal,
          CString.isAbsolute_foldl_join (clean_of_named named endsLast split), absolute]
      refine iff_of_true ?_ (by simp)
      refine halts_of_halt (.ok (.linkRelative (processLink text path.components.tail) st)) ?_ (by simp)
      simp only [findBody, found, followed, stays, Bool.false_eq_true, ↓reduceIte]

theorem halts_start (images : w.RegularImages) (held : w.memfsTable[index]? = some memfs)
    (plainly : w.Plainly index startFrom path) :
    Halts (chainBody w codedExit true) (.start memfs startFrom path, 0) ↔
      ∀ start ∈ w.replacedFirst index startFrom path, Halts (Substitution.body w.lookUp) start := by
  obtain ⟨front, ending, spelled, ends, filtered, present, named⟩ := components_spelled path
  simp only [World.Plainly, World.replacedFirst, held, filtered] at plainly ⊢
  have listed := path.components_chars.trans spelled
  cases found : memfs.find startFrom with
  | none =>
      refine iff_of_true (halts_of_halt (.error .ENOENT) ?_ (by simp)) (by simp)
      simp only [findBody, found]
  | some pi =>
      cases stat : memfs.getattr pi with
      | error errno =>
          have failed := @processInode_unknown memfs pi path.components errno stat
          simp only [stat]
          refine iff_of_true (halts_of_halt (.error errno) ?_ (by simp)) (by simp)
          simp only [findBody, found, failed]
      | ok st =>
          cases link : st.isLnk with
          | false =>
              simp only [stat, link, Bool.false_eq_true, ↓reduceIte]
              have moved : Moves (chainBody w codedExit true) (.start memfs startFrom path, 0)
                  (.walk memfs pi st path.components, 0) :=
                moves_of_next (findBody_of_move (.entered found (processInode_file stat link)))
              rw [halts_of_next moved]
              simp only [found, stat, link, Bool.false_eq_true, ↓reduceIte] at plainly
              exact halts_at images (.intro held ends listed) present named plainly
          | true =>
              cases read : memfs.fs.readlink pi with
              | error errno =>
                  have failed := @processInode_unread memfs pi st path.components errno stat link read
                  simp only [stat, link, read, ↓reduceIte]
                  refine iff_of_true (halts_of_halt (.error errno) ?_ (by simp)) (by simp)
                  simp only [findBody, found, failed]
              | ok text =>
                  simp only [found, stat, link, read, ↓reduceIte] at plainly ⊢
                  rw [halts_start_link images found stat link read listed ends named
                    fun absolute => plainly _ (by simp [absolute])]
                  cases absolute : isAbsolute text.chars with
                  | true => simp only [↓reduceIte, Option.mem_some_iff, forall_eq', forall_const]
                  | false => simp

theorem ends_iff_halts : (∃ fuel result, findInodeAbs w fuel memfs startFrom path true = some result) ↔
    Halts (chainBody w codedExit true) (.start memfs startFrom path, 0) := by
  constructor
  · intro ended
    obtain ⟨fuel, result, ran⟩ := ended
    exact halts_of_findInodeAbs ran
  · intro halts
    obtain ⟨⟨outcome, last⟩, returned⟩ := halts
    obtain ⟨fuel, ran⟩ := answers_start_iff.mp (answers_of_returns returned).2
    exact ⟨fuel, _, ran⟩

theorem ends_unfollowed (ended : ∃ fuel result, findInodeAbs w fuel memfs startFrom path true = some result) :
    ∃ fuel result, findInodeAbs w fuel memfs startFrom path false = some result := by
  obtain ⟨fuel, result, ran⟩ := ended
  obtain ⟨found, finished, _⟩ := answers_start_iff.mpr ⟨fuel, ran⟩
  obtain ⟨other, returned⟩ := halts_unfollowed ⟨found, finished⟩
  have here : ∃ result, ∀ fuel, followAbs w (findInodeAbs w fuel) false other = some result := by
    rcases other with errno | (st | ⟨lnk, st⟩ | ⟨lnk, st⟩ | ⟨lnk, st⟩)
    · exact ⟨_, fun _ => rfl⟩
    · exact ⟨_, fun _ => rfl⟩
    · exact ⟨_, fun _ => rfl⟩
    · cases known : isTebakoPath lnk with
      | true => exact ⟨_, fun _ => by simp only [followAbs, known, ↓reduceIte, Bool.false_eq_true]; rfl⟩
      | false => exact ⟨_, fun _ => by simp only [followAbs, known, ↓reduceIte, Bool.false_eq_true]; rfl⟩
    · exact ⟨_, fun _ => rfl⟩
  obtain ⟨result, follows⟩ := here
  obtain ⟨fuel, ran⟩ := answers_start_iff.mp ⟨other, returned, 0, follows 0⟩
  exact ⟨fuel, result, ran⟩

/-- The lookup of a path ends if and only if it comes by no link or mount point
that it comes by again where its own target is looked up. -/
theorem findInodeAbs_ends_iff (w : World) (index : UInt32) (memfs : Memfs) (startFrom : UInt32) (path : CString)
    (held : w.memfsTable[index]? = some memfs) (images : w.RegularImages)
    (finite : {entry | ∃ target, Substitution.Replaced w.lookUp entry target}.Finite)
    (plainly : w.Plainly index startFrom path) :
    ((∃ fuel result, findInodeAbs w fuel memfs startFrom path true = some result) ↔
      w.Unwinds index startFrom path) ∧
    (w.Unwinds index startFrom path →
      ∃ fuel result, findInodeAbs w fuel memfs startFrom path false = some result) := by
  have exactly : (∃ fuel result, findInodeAbs w fuel memfs startFrom path true = some result) ↔
      w.Unwinds index startFrom path := by
    rw [ends_iff_halts, halts_start images held plainly]
    exact forall₂_congr fun start _ => Substitution.halts_iff_acyclic finite
  exact ⟨exactly, fun unwinds => ends_unfollowed (exactly.mpr unwinds)⟩

/-! An image with no mount points in it. -/

section Unmounted

variable {entries : List ImageEntry} {root : Memfs} {host : CString → Except Errno FileStat}

theorem finite_of_entries :
    {entry | ∃ target, Substitution.Replaced (World.ofRoot (.ofEntries entries) ∅ host).lookUp entry target}.Finite := by
  refine (entries.map fun entry => (Place.inode 0 ⟨entry.parent⟩, entry.name.chars)).finite_toSet.subset ?_
  intro entry replaced
  obtain ⟨place, name⟩ := entry
  obtain ⟨target, replaced⟩ := replaced
  obtain ⟨index, pi, memfs, text, rfl, held, _, mount | ⟨noNul, child, found⟩⟩ := lookUp_replaced replaced
  · simp [World.ofRoot] at mount
  · obtain rfl := ofRoot_memfs held
    obtain ⟨_, entry, listed, parent, named, _⟩ := ofEntries_findChild found
    obtain rfl := ofEntries_reported parent.symm
    have first : 0 = index := by
      simp only [World.ofRoot, Std.ExtTreeMap.getElem?_insertIfNew] at held
      split at held
      · rename_i here
        exact Std.LawfulEqCmp.eq_of_compare here.1
      · simp at held
    have whole : entry.name.chars = name := by rw [named, cStr_chars_of_noNul noNul]
    exact List.mem_map.mpr ⟨entry, List.mem_of_getElem? listed, by rw [first, whole]⟩

/-- What is left to check, with no mount points. -/
theorem unmistaken_of_unmounted {place : Place} {list : List Path} (told : place = .host →
    ∀ first ∈ list.head?, tebakoMountPointName <+: first →
      first = tebakoMountPointName ∧ (fromRoot list).length < tebakoPathLength) :
    (World.ofRoot root ∅ host).Unmistaken (place, list) := by
  cases place with
  | host => exact told rfl
  | inode index pi =>
      intro memfs _ _
      simp [World.ofRoot]

end Unmounted

/-- A link `a` to a link in the directory `d`, which leads to a file by an
absolute path. -/
def linkToLink : Memfs := .ofEntries
  [⟨0, cStr ['d'], 0o040755, .empty⟩, ⟨0, cStr ['f'], 0o100644, .empty⟩,
    ⟨0, cStr ['a'], 0o120777, cStr ['d', '/', 'b']⟩,
    ⟨1, cStr ['b'], 0o120777, cStr (tebakoMountPoint ++ ['/', 'f'])⟩]

def linkToLinkWorld : World := .ofRoot linkToLink ∅ fun _ => .error .ENOENT

theorem linkToLink_plainly : linkToLinkWorld.Plainly 0 0 (cStr ['a']) := by
  have first : linkToLinkWorld.replacedFirst 0 0 (cStr ['a']) = some (.inode 0 ⟨0⟩, [['d'], ['b']]) := by rfl
  simp only [World.Plainly, first, Option.mem_some_iff, forall_eq']
  refine forall_reached_of_next (show Moves _ _ (.inode 0 ⟨1⟩, [['b']]) by rfl)
    (unmistaken_of_unmounted (by simp)) ?_
  refine forall_reached_of_next (show Moves _ _ (.host, [tebakoMountPointName, ['f']]) by rfl)
    (unmistaken_of_unmounted (by simp)) ?_
  refine forall_reached_of_next (show Moves _ _ (.inode 0 ⟨0⟩, [['f']]) by rfl)
    (unmistaken_of_unmounted fun _ => by decide) ?_
  refine forall_reached_of_next (show Moves _ _ (.inode 0 ⟨2⟩, []) by rfl) (unmistaken_of_unmounted (by simp)) ?_
  exact forall_reached_of_halt rfl (unmistaken_of_unmounted (by simp))

theorem linkToLink_ends : (∃ fuel result, findInodeAbs linkToLinkWorld fuel linkToLink 0 (cStr ['a']) true = some result) ∧
    linkToLinkWorld.Unwinds 0 0 (cStr ['a']) := by
  have ended : ∃ fuel result, findInodeAbs linkToLinkWorld fuel linkToLink 0 (cStr ['a']) true = some result :=
    ⟨8, .ok (.inode ⟨2, 0o100644, 0⟩), by decide +kernel⟩
  refine ⟨ended, (findInodeAbs_ends_iff linkToLinkWorld 0 linkToLink 0 (cStr ['a']) ?_ ?_ ?_ ?_).1.mp ended⟩
  · rfl
  · exact ofRoot_regularImages (regular_of_entries rfl (by decide))
  · exact finite_of_entries
  · exact linkToLink_plainly

def linkToItself : Memfs := .ofLinks [(cStr ['a'], cStr ['a'])]

def linkToItselfWorld : World := .ofLinks [(cStr ['a'], cStr ['a'])] (.error .ENOENT)

theorem linkToItself_not_ended : ¬ ∃ fuel result,
    findInodeAbs linkToItselfWorld fuel linkToItself 0 (cStr ['a']) true = some result := by
  intro ended
  obtain ⟨fuel, result, ran⟩ := ended
  let again (st : FileStat) : FindState × Nat := (.walk linkToItself ⟨0⟩ st [cStr ['a']], 0)
  have entered : Moves (chainBody linkToItselfWorld codedExit true)
      (.start linkToItself 0 (cStr ['a']), 0) (again ⟨0, 0o040755, 0⟩) := by rfl
  have expanded (st : FileStat) : Moves (chainBody linkToItselfWorld codedExit true)
      (again st) (again ⟨1, 0o120777, 0⟩) := by rfl
  have goes_on : ¬ Halts (chainBody linkToItselfWorld codedExit true) (again ⟨0, 0o040755, 0⟩) := by
    apply @not_halts_of_kept _ _ _ _ fun both => ∃ st, both = again st
    · intro both same
      obtain ⟨st, rfl⟩ := same
      exact ⟨_, expanded st, _, rfl⟩
    · exact ⟨_, rfl⟩
  exact goes_on ((halts_of_next entered).mp (halts_of_findInodeAbs ran))

theorem not_every_lookup_ends : ¬ ∀ w memfs startFrom path follow,
    ∃ fuel result, findInodeAbs w fuel memfs startFrom path follow = some result :=
  fun always => linkToItself_not_ended (always linkToItselfWorld linkToItself 0 (cStr ['a']) true)

end Tebako
