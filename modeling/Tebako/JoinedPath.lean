import Tebako.Lstat
import Tebako.PathPrefix
import Tebako.WorkingDirs

namespace Tebako

open Data Data.Loop Data.LexicalPath

/-! A path and the same path with names added, along a whole chain of links.

From a directory on, the lookup of the longer path is the lookup of the added
names from there. -/

variable {w : World} {added : Addition} {memfs : Memfs} {pi : InodeView} {st seen : FileStat}
variable {state after longer : FindState} {name lnk target : CString} {rest more later : List CString}
variable {front ending last : List Path} {path : CString} {follow : Bool} {count first : Nat}

theorem outline_below {text : Path} (absolute : isAbsolute text = true)
    (below : Below tebakoMountPoint (lexicallyNormal text)) :
    ∃ rest, (outline text).names = tebakoMountPointName :: rest :=
  List.head?_eq_some_iff.mp ((below_iff_head mountPoint_nonempty mountPoint_clean absolute).mp below)

/-- Behind an absolute link, too, the names are added to where it leads. -/
theorem Continues.leave (continues : Continues added name rest more front ending last later)
    (absolute : isAbsolute (processLink target rest).chars = true)
    (below : Below tebakoMountPoint (processLink target rest).chars) :
    isAbsolute (processLink target later).chars = true ∧
      Below tebakoMountPoint (processLink target later).chars ∧
      Extends added (components ((processLink target rest).drop (tebakoMountPointLength + 1)).chars)
        (components ((processLink target later).drop (tebakoMountPointLength + 1)).chars) := by
  have named := continues.named
  have namedLonger := named.append added.named
  have cleanLater := clean_of_named namedLonger continues.endsLast continues.longer
  simp only [processLink, CString.normal_chars, isAbsolute_lexicallyNormal,
    CString.isAbsolute_foldl_join (clean_of_named named continues.ends continues.shorter)] at absolute
  have absoluteShort : isAbsolute (rest.foldl CString.join target).chars = true := by
    rw [CString.isAbsolute_foldl_join (clean_of_named named continues.ends continues.shorter), absolute]
  have absoluteLong : isAbsolute (later.foldl CString.join target).chars = true := by
    rw [CString.isAbsolute_foldl_join cleanLater, absolute]
  obtain ⟨namesShort, _⟩ := @names_joined _ _ _ target named continues.ends continues.shorter
  obtain ⟨namesLong, lastLong⟩ :=
    @names_joined _ _ _ target namedLonger continues.endsLast continues.longer
  obtain ⟨slashes, separates⟩ :=
    slash_joined continues.endsLast continues.slash continues.separator lastLong
  have plain : ∀ name ∈ added.names, Plain name := fun name member => (added.plain name member).1
  have grown : (outline (later.foldl CString.join target).chars).names =
      (outline (rest.foldl CString.join target).chars).names ++ added.names := by
    simp only [outline, absoluteShort, absoluteLong, namesShort, namesLong, ← List.append_assoc]
    exact collapse_append_plain plain
  obtain ⟨inner, outlined⟩ := outline_below absoluteShort below
  refine ⟨?_, ?_, ?_⟩
  · rw [processLink, CString.normal_chars, isAbsolute_lexicallyNormal, absoluteLong]
  · rw [processLink, CString.normal_chars]
    refine (below_iff_head mountPoint_nonempty mountPoint_clean absoluteLong).mpr ?_
    rw [grown, outlined, List.cons_append, List.head?_cons]
  · exact extends_below mountPoint_nonempty mountPoint_clean absoluteShort absoluteLong outlined grown
      slashes separates

/-- Where the shorter path leaves through a link back into the memfs, the longer
one leaves through the same link. -/
theorem further_leave (images : w.RegularImages) (undotted : Undotted w state)
    (left : FindLeave w true state lnk seen)
    (absolute : isAbsolute lnk.chars = true) (below : Below tebakoMountPoint lnk.chars)
    (further : Further w added state longer) :
    ∃ other, FindLeave w true longer other seen ∧ isAbsolute other.chars = true ∧
      Below tebakoMountPoint other.chars ∧
      Extends added (components (lnk.drop (tebakoMountPointLength + 1)).chars)
        (components (other.drop (tebakoMountPointLength + 1)).chars) := by
  cases further with
  | @start memfs inode path longer held root extended =>
      cases left with
      | start found linked =>
          have link := linked_is_link linked
          rw [images.root held root found (processInode_link linked).1] at link
          cases link
  | @walk memfs pi seen spelled more held own extended =>
      cases left with
      | @link _ _ child _ _ name lnk rest named free found linked =>
          have plain := images.child_ne_dotDot held found
          obtain ⟨front, ending, last, later, continues⟩ := extended.continues named plain
          obtain rfl := continues.next
          have link := linked_is_link linked
          obtain ⟨stat, target, read, rfl⟩ := processInode_link linked
          obtain ⟨rooted, within, extended⟩ := continues.leave absolute below
          exact ⟨_, .link named free found
            (processInode_followed stat link read (.inl continues.later_ne_nil)), rooted, within, extended⟩
      | @mount _ _ _ name target rest named mount =>
          have plain := undotted.mount_ne_dotDot mount
          obtain ⟨front, ending, last, later, continues⟩ := extended.continues named plain
          obtain rfl := continues.next
          obtain ⟨rooted, within, extended⟩ := continues.leave absolute below
          exact ⟨_, .mount named mount, rooted, within, extended⟩

/-! ## Along the chain -/

theorem leaveInode_inode {exit : CString → Exit} {found : Except Errno Lookup}
    (left : leaveInode w exit true first found = .halt (.inode st, count)) :
    found = .ok (.inode st) ∧ first = count := by
  rcases found with errno | (seen | ⟨lnk, seen⟩ | ⟨lnk, seen⟩ | ⟨lnk, seen⟩)
  · cases left
  · cases left
    exact ⟨rfl, rfl⟩
  · cases left
  · simp only [leaveInode, ↓reduceIte] at left
    split at left
    · cases left
    · cases left
    · split at left <;> cases left
  · cases left

theorem proceeds_of_chain {exit : CString → Exit} (notLink : st.isLnk = false)
    (returned : Returns (chainBody w exit true) (state, first) (.inode st, count)) :
    Proceeds w true state := by
  intro found stopped
  have leads := (returns_nested (returns_of_halt stopped)).mp returned
  constructor
  · intro errno same
    subst same
    cases leads
  · intro seen same
    subst same
    cases leads
    exact notLink

theorem below_of_exitOf (exits : exitOf lnk = .inside path) :
    Below tebakoMountPoint lnk.chars ∧ path = lnk.drop (tebakoMountPointLength + 1) := by
  simp only [exitOf] at exits
  split at exits
  · rename_i below
    split at exits
    · exact ⟨below, (Exit.inside.inj exits).symm⟩
    · cases exits
  · cases exits

theorem leave_of_linkAbsolute (stopped : findBody w follow state = .halt (.ok (.linkAbsolute lnk st))) :
    FindLeave w follow state lnk st ∧ isAbsolute lnk.chars = true := by
  cases findHalt_of_halt stopped with
  | absolute left absolute => exact ⟨left, absolute⟩

/-- The longer path comes to where the shorter one ends, unless a path on the
way becomes too long. -/
theorem arrives_chain (images : w.RegularImages) (notLink : st.isLnk = false)
    (returned : Returns (chainBody w exitOf true) (state, first) (.inode st, count))
    (undotted : ∀ both, Relation.ReflTransGen (Moves (chainBody w exitOf true)) (state, first) both →
      Undotted w both.1)
    (further : Further w added state longer) :
    (∃ lnk reentries, Returns (chainBody w exitOf true) (longer, first) (.lost lnk, reentries)) ∨
      ∃ memfs pi rest more last,
        Relation.ReflTransGen (Moves (chainBody w exitOf true)) (state, first) (.walk memfs pi st rest, count) ∧
        (∀ name ∈ rest.head?, name.chars = []) ∧
        Relation.ReflTransGen (Moves (chainBody w exitOf true)) (longer, first) (.walk memfs pi st more, count) ∧
        Arrives w added st memfs pi more last := by
  generalize begun : (state, first) = both at returned
  induction returned using Returns.rec_on generalizing state first longer with
  | halt both stopped =>
      subst begun
      rcases nested_cases stopped with ⟨after, _, same⟩ | ⟨found, taken, left⟩
      · cases same
      · obtain ⟨rfl, rfl⟩ := leaveInode_inode left
        cases findHalt_of_halt taken with
        | inode ended =>
            obtain ⟨more, last, rfl, arrived⟩ := arrives_of_ended notLink ended further
            exact .inr ⟨_, _, _, more, last, .refl, ended, .refl, arrived⟩
  | next both after moved rest ih =>
      subst begun
      have here : Undotted w state := undotted _ .refl
      have later : ∀ both, Relation.ReflTransGen (Moves (chainBody w exitOf true)) after both → Undotted w both.1 :=
        fun both reached => undotted both (reached.head moved)
      rcases nested_cases moved with ⟨reached, taken, same⟩ | ⟨found, taken, left⟩
      · cases same
        obtain ⟨next, move, further⟩ := @further_step _ w true true _ _ _ images here (later _ .refl)
          (findMove_of_next taken) (proceeds_of_chain notLink rest) further
        have step : chainBody w exitOf true (longer, first) = .next (next, first) :=
          nested_next (findBody_of_move move)
        rcases ih later further rfl with
          ⟨lnk, reentries, lost⟩ | ⟨memfs, pi, left, more, last, ends, ended, path, arrived⟩
        · exact .inl ⟨lnk, reentries, (returns_iff_of_next step).mpr lost⟩
        · exact .inr ⟨memfs, pi, left, more, last, ends.head moved, ended, path.head step, arrived⟩
      · obtain ⟨lnk, seen, path, root, rfl, exits, _, held, rfl⟩ := leaveInode_next left
        obtain ⟨below, rfl⟩ := below_of_exitOf exits
        have leave := leave_of_linkAbsolute taken
        obtain ⟨other, next, rooted, within, extended⟩ :=
          further_leave images here leave.1 leave.2 below further
        by_cases fits : other.chars.length ≤ tebakoPathLength
        · have step : chainBody w exitOf true (longer, first) = .next
              (.start root root.dwarfsRootInode (other.drop (tebakoMountPointLength + 1)), first + 1) := by
            rw [chainBody, nested_halt (findBody_of_leave next rooted)]
            simp only [leaveInode, exitOf, within, fits, held, ↓reduceIte]
          rcases ih later (.start ⟨0, held⟩ rfl extended) rfl with
            ⟨lnk, reentries, lost⟩ | ⟨memfs, pi, left, more, last, ends, ended, path, arrived⟩
          · exact .inl ⟨lnk, reentries, (returns_iff_of_next step).mpr lost⟩
          · exact .inr ⟨memfs, pi, left, more, last, ends.head moved, ended, path.head step, arrived⟩
        · left
          refine ⟨other, first, returns_of_halt ?_⟩
          rw [chainBody, nested_halt (findBody_of_leave next rooted)]
          simp only [leaveInode, exitOf, within, fits, ↓reduceIte]

/-! ## What is found along the chain -/

variable {result found : Except Errno Lookup} {both next : FindState × Nat}

theorem answers_of_moves (reached : Relation.ReflTransGen (Moves (findBody w follow)) state after) :
    Answers w follow state result ↔ Answers w follow after result := by
  simp only [Answers, returns_of_reaches reached]

theorem coded_move (moved : Moves (chainBody w exitOf true) both next) :
    Moves (chainBody w codedExit true) both next := by
  rcases @chainBody_codedExit w both with same | ⟨other, _, ended⟩
  · exact same.trans moved
  · exact absurd (ended.symm.trans moved) (by simp)

theorem coded_moves (reached : Relation.ReflTransGen (Moves (chainBody w exitOf true)) both next) :
    Relation.ReflTransGen (Moves (chainBody w codedExit true)) both next :=
  Relation.ReflTransGen.mono (fun _ _ moved => coded_move moved) _ _ reached

/-- Through a link back into the memfs the result passes `tebako_stat`. -/
theorem answers_reentry_iff {root : Memfs}
    (stopped : findBody w true state = .halt (.ok (.linkAbsolute lnk st)))
    (exits : codedExit lnk = .inside path) (held : w.memfsTable[(0 : UInt32)]? = some root) :
    Answers w true state result ↔
      ∃ found, Answers w true (.start root root.dwarfsRootInode path) found ∧
        w.statOutside found = result := by
  have known := isTebakoPath_of_codedExit exits (by simp)
  have stops : Answers w true state result ↔ ∃ fuel,
      followAbs w (findInodeAbs w fuel) true (.ok (.linkAbsolute lnk st)) = some result := by
    simp only [Answers, returns_iff_of_halt stopped, exists_eq_left]
  simp only [stops, answers_start_iff, followAbs, known, ↓reduceIte,
    tebakoStatVia_of_isTebakoPath known, exits, held]
  exact exists_map_iff

/-- From the second image on, what is found outside has been looked at. -/
def World.lookedAt (w : World) (again : Bool) (found : Except Errno Lookup) : Except Errno Lookup :=
  if again then w.statOutside found else found

theorem answers_of_chain
    (reached : Relation.ReflTransGen (Moves (chainBody w codedExit true)) (state, first) (after, count)) :
    first ≤ count ∧ ∀ result, Answers w true state result ↔
      ∃ found, Answers w true after found ∧ w.lookedAt (first < count) found = result := by
  generalize begun : (state, first) = both at reached
  induction reached using Relation.ReflTransGen.head_induction_on generalizing state first with
  | refl =>
      cases begun
      refine ⟨Nat.le_refl _, fun result => ?_⟩
      simp [World.lookedAt]
  | head moved _ ih =>
      subst begun
      rcases nested_cases moved with ⟨reached, taken, same⟩ | ⟨found, taken, left⟩
      · cases same
        obtain ⟨below, answers⟩ := ih rfl
        refine ⟨below, fun result => ?_⟩
        rw [← answers result]
        exact answers_of_moves (.single taken)
      · obtain ⟨lnk, seen, path, root, rfl, exits, _, held, rfl⟩ := leaveInode_next left
        obtain ⟨below, answers⟩ := ih rfl
        refine ⟨Nat.le_of_succ_le below, fun result => ?_⟩
        have later : first < count := below
        simp only [answers_reentry_iff taken exits held, answers, World.lookedAt, later, decide_true,
          ↓reduceIte]
        constructor
        · intro answer
          obtain ⟨_, ⟨found, answered, rfl⟩, rfl⟩ := answer
          refine ⟨found, answered, ?_⟩
          split
          · exact statOutside_statOutside.symm
          · rfl
        · intro answer
          obtain ⟨found, answered, rfl⟩ := answer
          refine ⟨_, ⟨found, answered, rfl⟩, ?_⟩
          split
          · exact statOutside_statOutside
          · rfl

/-! ## Joining a path -/

/-- A path of the memfs that is looked up as it is named. -/
structure NamedInMemfs (cwd : Cwd) (path named : CString) : Prop where
  names : namedPath cwd path = some named
  below : Below tebakoMountPoint named.chars
  known : toTebakoPath cwd path = some named

/-- A relative path in its normal form that does not lead upwards. -/
structure Inner (r : CString) : Prop where
  relative : isAbsolute r.chars = false
  normal : r.normal = r
  within : dotDot ∉ names r.chars

variable {cwd : Cwd} {dir named r : CString}

theorem Inner.plain (inner : Inner r) (named : r.chars ≠ dot) :
    ∀ name ∈ names r.chars, Plain name ∧ '/' ∉ name := by
  intro name member
  refine ⟨⟨(mem_names member).1, ?_, fun up => inner.within (up ▸ member)⟩, (mem_names member).2⟩
  intro same
  subst same
  have normal : lexicallyNormal r.chars = r.chars := congrArg CString.chars inner.normal
  have present : r.chars ≠ [] := by
    intro empty
    rw [empty] at member
    cases member
  by_cases absent : (outline r.chars).names = []
  · rw [lexicallyNormal_of_names_nil present absent, inner.relative] at normal
    exact named normal.symm
  · rw [← normal, names_lexicallyNormal absent] at member
    exact (outline_wellFormed r.chars).noDot _ member rfl

/-- The names of such a path, added to another one; `.` adds none. -/
def Inner.addition (inner : Inner r) : Addition where
  names := if r.chars = dot then [] else names r.chars
  slash := decide (lastSegment r.chars = [])
  plain := by
    intro name member
    split at member
    · cases member
    · rename_i named
      exact inner.plain named name member

theorem Inner.addition_names (inner : Inner r) :
    inner.addition.names = if r.chars = dot then [] else names r.chars := rfl

theorem Inner.empty (inner : Inner r) (none : inner.addition.names = []) : r.chars = [] ∨ r.chars = dot := by
  by_cases here : r.chars = dot
  · exact .inr here
  · rw [inner.addition_names, if_neg here] at none
    exact .inl (eq_nil_of_names inner.relative none)

theorem Inner.outline_append {text : Path} (inner : Inner r) (absolute : isAbsolute text = true) :
    (outline (append text r.chars)).names = (outline text).names ++ inner.addition.names := by
  simp only [outline, isAbsolute_append inner.relative, absolute, names_append inner.relative,
    inner.addition_names]
  by_cases here : r.chars = dot
  · have only : names r.chars = [dot] := by rw [here]; rfl
    rw [if_pos here, only, collapse_append, List.append_nil]
    simp [push]
  · rw [if_neg here]
    exact collapse_append_plain fun name member => (inner.plain here name member).1

theorem Inner.slash_append {text : Path} (inner : Inner r) :
    (inner.addition.names ≠ [] →
        ((outline (append text r.chars)).slash = true ↔ inner.addition.slash = true)) ∧
      (inner.addition.names = [] → (outline (append text r.chars)).slash = true) := by
  rw [outline, decide_eq_true_iff, lastSegment_append inner.relative]
  refine ⟨fun present => ?_, fun none => ?_⟩
  · have named : r.chars ≠ dot := by
      intro here
      simp [inner.addition_names, here] at present
    rw [addition, decide_eq_true_iff]
    refine ⟨fun ended => ?_, fun ended => by simp [ended]⟩
    by_contra kept
    obtain ⟨front, split⟩ := names_eq_append_lastSegment kept
    have plain := (inner.plain named (lastSegment r.chars) (by simp [split])).1
    simp [plain.nonempty, plain.notDot, plain.notDotDot] at ended
  · rcases inner.empty none with empty | here
    · simp [empty]
    · rw [here]
      decide

theorem normal_of_namedPath (names : namedPath cwd dir = some named) : named.normal = named := by
  unfold namedPath at names
  split at names
  · cases names
    exact CString.ext (lexicallyNormal_lexicallyNormal _)
  · split at names
    · obtain ⟨base, _, rfl⟩ := Option.map_eq_some_iff.mp names
      exact CString.ext (lexicallyNormal_lexicallyNormal _)
    · cases names

theorem Inner.below_normal (inner : Inner r) (below : Below tebakoMountPoint dir.chars)
    (normal : dir.normal = dir) : Below tebakoMountPoint (dir.join r).normal.chars := by
  have absolute := isAbsolute_of_below below
  have same : lexicallyNormal dir.chars = dir.chars := congrArg CString.chars normal
  obtain ⟨rest, outlined⟩ := outline_below absolute (same.symm ▸ below)
  refine (below_iff_head mountPoint_nonempty mountPoint_clean ?_).mpr ?_
  · rw [CString.join_chars, isAbsolute_append inner.relative, absolute]
  · rw [CString.join_chars, inner.outline_append absolute, outlined, List.cons_append, List.head?_cons]

theorem Inner.below_join (inner : Inner r) (path : NamedInMemfs cwd dir named) :
    Below tebakoMountPoint (named.join r).normal.chars :=
  inner.below_normal path.below (normal_of_namedPath path.names)

/-- A relative path of the memfs is named from a current directory that has a path. -/
theorem NamedInMemfs.rooted (path : NamedInMemfs cwd dir named) {base : CString}
    (relative : isAbsolute dir.chars = false) (here : cwd = some base) : isAbsolute base.chars = true := by
  have names := path.names
  rw [namedPath, relative, here] at names
  by_cases within : Cwd.isIn (some base) = true
  · rw [if_neg (by decide), if_pos within, Option.map_some, Option.some.injEq] at names
    have absolute := isAbsolute_of_below path.below
    rwa [← names, CString.normal_chars, isAbsolute_lexicallyNormal, CString.join_chars,
      isAbsolute_append relative] at absolute
  · rw [if_neg (by decide), if_neg within] at names
    cases names

theorem namedPath_join (inner : Inner r) (path : NamedInMemfs cwd dir named) :
    namedPath cwd (dir.join r) = some (named.join r).normal := by
  have names := path.names
  unfold namedPath at names ⊢
  rw [CString.join_chars, isAbsolute_append inner.relative]
  split at names
  · rename_i absolute
    cases names
    rw [if_pos absolute]
    exact congrArg some (CString.ext (lexicallyNormal_append_left absolute inner.relative).symm)
  · rename_i relative
    have between := eq_false_of_ne_true relative
    split at names
    · rename_i within
      obtain ⟨base, here, rfl⟩ := Option.map_eq_some_iff.mp names
      have rooted := path.rooted between here
      subst here
      rw [if_neg relative, if_pos within]
      refine congrArg some (CString.ext ?_)
      have joined : isAbsolute (append base.chars dir.chars) = true := by
        rw [isAbsolute_append between, rooted]
      exact (lexicallyNormal_append_append rooted between inner.relative).trans
        (lexicallyNormal_append_left joined inner.relative).symm
    · cases names

theorem NamedInMemfs.join (inner : Inner r) (path : NamedInMemfs cwd dir named)
    (fits : (named.join r).normal.chars.length ≤ tebakoPathLength) :
    NamedInMemfs cwd (dir.join r) (named.join r).normal where
  names := namedPath_join inner path
  below := inner.below_join path
  known := by
    have known := path.known
    have joined : isAbsolute (dir.join r).chars = isAbsolute dir.chars := isAbsolute_append inner.relative
    rw [toTebakoPath_eq fun relative base here _ => path.rooted relative here, path.names, Option.bind_some] at known
    rw [toTebakoPath_eq fun relative base here _ => path.rooted (joined.symm.trans relative) here,
      namedPath_join inner path, Option.bind_some, tebakoPathAssign_eq_iff.mpr fits, CString.join_chars, isAbsolute_append inner.relative]
    refine if_neg fun missed => ?_
    have shown : isTebakoPath dir = true := by
      by_contra unknown
      rw [if_pos ⟨missed.1, eq_false_of_ne_true unknown⟩] at known
      cases known
    rw [isTebakoPath_join (isTebakoPath_iff.mp shown) inner.relative] at missed
    cases missed.2

theorem start_of_named (path : NamedInMemfs cwd dir named) :
    Request.start w (.stat named) =
      match w.memfsTable[(0 : UInt32)]? with
      | none => .error .ENOENT
      | some root => .ok (.start root root.dwarfsRootInode (named.drop (tebakoMountPointLength + 1))) := by
  simp only [Request.start, adjustedPath_of_below path.below]
  cases w.memfsTable[(0 : UInt32)]? <;> rfl

theorem Inner.extends_normal (inner : Inner r) (below : Below tebakoMountPoint dir.chars)
    (normal : dir.normal = dir) :
    Extends inner.addition (components (dir.drop (tebakoMountPointLength + 1)).chars)
      (components ((dir.join r).normal.drop (tebakoMountPointLength + 1)).chars) := by
  have absolute := isAbsolute_of_below below
  have same : lexicallyNormal dir.chars = dir.chars := congrArg CString.chars normal
  obtain ⟨rest, outlined⟩ := outline_below absolute (same.symm ▸ below)
  have extended := extends_below mountPoint_nonempty mountPoint_clean absolute
    (by rw [isAbsolute_append inner.relative, absolute]) outlined (inner.outline_append absolute)
    inner.slash_append.1 inner.slash_append.2
  rw [same] at extended
  exact extended

theorem extends_joined (inner : Inner r) (path : NamedInMemfs cwd dir named) :
    Extends inner.addition (components (named.drop (tebakoMountPointLength + 1)).chars)
      (components ((named.join r).normal.drop (tebakoMountPointLength + 1)).chars) :=
  inner.extends_normal path.below (normal_of_namedPath path.names)

end Tebako
