import Tebako.DirCtl
import Tebako.LinkTarget

namespace Tebako

open Data Data.Loop Data.LexicalPath

/-! Which names `tebako_mkdir`, `tebako_rmdir` and `tebako_unlink` change.

A name belongs to the directory that the rest of its path leads to. Where that
directory is in an image, nothing may be changed, whatever the name itself
stands for. -/

/-- A path of a memfs as `to_tebako_path` gives it: normal, and below the mount point. -/
structure MemfsPath (p : CString) : Prop where
  below : Below tebakoMountPoint p.chars
  normal : p.normal = p

def FindState.namesLeft : FindState → Nat
  | .start _ _ path => (names path.chars).length
  | .walk _ _ _ rest => (rest.filter fun name => name.chars ≠ [] ∧ name.chars ≠ ['/']).length

/-- The link or the mount point to be expanded next, and the names behind it. -/
inductive Meets (w : World) : FindState → CString → List CString → Prop where
  | start {memfs : Memfs} {inode : UInt32} {path target : CString} {pi : InodeView}
      (found : memfs.find inode = some pi) (link : memfs.fs.readlink pi = .ok target) :
      Meets w (.start memfs inode path) target path.components.tail
  | link {memfs : Memfs} {pi child : InodeView} {st : FileStat} {name target : CString}
      {rest : List CString} (named : name.chars ≠ [])
      (free : w.mountTable[(memfs.reported pi, name.chars)]? = none)
      (found : memfs.findChild (memfs.reported pi) name = some child)
      (link : memfs.fs.readlink child = .ok target) :
      Meets w (.walk memfs pi st (name :: rest)) target rest
  | mount {memfs : Memfs} {pi : InodeView} {st : FileStat} {name target : CString}
      {rest : List CString} (named : name.chars ≠ [])
      (mount : w.mountTable[(memfs.reported pi, name.chars)]? = some (.path target)) :
      Meets w (.walk memfs pi st (name :: rest)) target rest

/-- The last name, with nothing but a separator after it. -/
def EndsWith (last : CString) (rest front : List CString) : Prop :=
  ∃ slash, rest = front ++ last :: slash ∧ (slash = [] ∨ slash = [.empty])

def FindReaches (w : World) (p : CString) (state : FindState) : Prop :=
  ∃ start, Request.start w (.stat p) = .ok start ∧
    Relation.ReflTransGen (Moves (findBody w true)) start state

/-- The lookup of `p` comes to a directory of an image with at most the last
name left: the parent directory is in that image. -/
def ParentInside (w : World) (p : CString) : Prop :=
  ∃ start both, Request.start w (.stat p) = .ok start ∧
    Relation.ReflTransGen (Moves (chainBody w exitOf true)) (start, 0) both ∧
    both.1.namesLeft ≤ 1

/-- The lookup of `p` meets a link or a mount point which leads, with the names
before the last one behind it, to a directory of the host. -/
def ParentOutside (w : World) (p host : CString) : Prop :=
  ∃ state target behind front last, FindReaches w p state ∧ Meets w state target behind ∧
    EndsWith last behind front ∧ (names p.chars).getLast? = some last.chars ∧
    host = processLink target front ∧ isAbsolute host.chars = true ∧
    ¬ Below tebakoMountPoint host.chars

def EntryOf (host p entry : CString) : Prop :=
  isAbsolute entry.chars = true ∧ ∃ last, (names p.chars).getLast? = some last ∧
    names entry.chars = names host.chars ++ [last]

inductive NameCall where
  | mkdir (mode : UInt32)
  | rmdir
  | unlink

namespace NameCall

def change : NameCall → CString → HostChange
  | .mkdir mode, path => .mkdir path mode
  | .rmdir, path => .rmdir path
  | .unlink, path => .unlink path

def run (w : World) (fuel : Nat) (path : CString) : NameCall → Option ChangeAnswer
  | .mkdir mode => tebakoMkdir w fuel (some path) mode
  | .rmdir => tebakoRmdir w fuel (some path)
  | .unlink => tebakoUnlink w fuel (some path)

end NameCall

/-- The host changes only entries of its own directories; a name in a directory
of an image is refused as on a read-only file system. -/
structure KeepsImage (w : World) (call : NameCall) (path p : CString) : Prop where
  onlyOutside : ∀ fuel change, call.run w fuel path = some (.host change) →
    ∃ host entry, ParentOutside w p host ∧ EntryOf host p entry ∧ change = call.change entry
  imageKept : ParentInside w p → ∀ fuel found, dwarfsStat w fuel p true = some found →
    call.run w fuel path = some (.failed .EROFS)

/-- The lookup of the last name in a directory of an image leads out of the
memfs: it is a link or a mount point, and its target is on the host. -/
def LastLeadsOut (w : World) (p : CString) : Prop :=
  ∃ state lnk st, FindReaches w p state ∧ state.namesLeft ≤ 1 ∧
    Returns (findBody w true) state (.ok (.linkAbsolute lnk st)) ∧ isTebakoPath lnk = false

variable {w : World} {call : NameCall} {path p lnk target last : CString} {st : FileStat}
variable {state after start : FindState} {rest front : List CString} {fuel : Nat}

theorem NameCall.run_eq (known : toTebakoPath w.cwd path = some p) :
    call.run w fuel path = (dwarfsStat w fuel p true).map fun
      | .ok (.linkOutside lnk _) => .host (call.change lnk)
      | _ => .failed .EROFS := by
  cases call with
  | mkdir mode => simp only [run, tebakoMkdir, changeName, known]; rfl
  | rmdir => simp only [run, tebakoRmdir, changeName, known]; rfl
  | unlink => simp only [run, tebakoUnlink, changeName, known]; rfl

/-! ## A link outside is found before any link back into the memfs -/

theorem dwarfsStat_outside_iff (starts : Request.start w (.stat p) = .ok start) :
    (∃ fuel, dwarfsStat w fuel p true = some (.ok (.linkOutside lnk st))) ↔
      Returns (findBody w true) start (.ok (.linkAbsolute lnk st)) ∧ isTebakoPath lnk = false := by
  have answers := @Request.run_iff w true (.stat p) (.ok (.linkOutside lnk st))
  rw [starts] at answers
  exact answers.trans answers_outside_iff

theorem lastLeadsOut_of_inside (starts : Request.start w (.stat p) = .ok start)
    (finished : Returns (findBody w true) start (.ok (.linkAbsolute lnk st)))
    (unknown : isTebakoPath lnk = false) (inside : ParentInside w p) : LastLeadsOut w p := by
  obtain ⟨first, both, same, reached, few⟩ := inside
  obtain rfl : start = first := Except.ok.inj (starts.symm.trans same)
  rcases reaches_nested reached with ⟨_, path⟩ | ⟨found, next, returned, left⟩
  · exact ⟨both.1, lnk, st, ⟨start, starts, path⟩, few, (returns_of_reaches path).mp finished, unknown⟩
  · obtain rfl := returned.unique finished
    simp [leaveInode, exitOf_outside unknown] at left

/-! ## The last name stays the last -/

/-- A name that normalisation leaves alone. -/
structure NamedLast (last : CString) : Prop where
  plain : Plain last.chars
  clean : '/' ∉ last.chars

def KeepsLast (last : CString) : FindState → Prop
  | .start _ _ path => ∃ front, names path.chars = front ++ [last.chars]
  | .walk _ _ _ rest => ∃ front, EndsWith last rest front

theorem EndsWith.tail (ends : EndsWith last rest front) (present : front ≠ []) :
    EndsWith last rest.tail front.tail := by
  obtain ⟨slash, rfl, separator⟩ := ends
  cases front with
  | nil => exact absurd rfl present
  | cons name front => exact ⟨slash, rfl, separator⟩

theorem EndsWith.front_ne_nil (ends : EndsWith last rest front)
    (more : 1 < (rest.filter fun name => name.chars ≠ [] ∧ name.chars ≠ ['/']).length) :
    front ≠ [] := by
  intro none
  obtain ⟨slash, rfl, separator⟩ := ends
  subst none
  have few : ((last :: slash).filter fun name => name.chars ≠ [] ∧ name.chars ≠ ['/']).length ≤ 1 := by
    rcases separator with rfl | rfl
    · exact List.length_filter_le _ _
    · rw [List.filter_cons]
      split <;> simp
  rw [List.nil_append] at more
  omega

theorem foldl_join_endsWith (named : NamedLast last) (ends : EndsWith last rest front)
    (base : CString) :
    names (rest.foldl CString.join base).chars =
        names (front.foldl CString.join base).chars ++ [last.chars] ∧
      isAbsolute (rest.foldl CString.join base).chars =
        isAbsolute (front.foldl CString.join base).chars := by
  obtain ⟨slash, rfl, separator⟩ := ends
  have relative := isAbsolute_of_clean named.clean
  have joined : names ((front.foldl CString.join base).join last).chars =
      names (front.foldl CString.join base).chars ++ [last.chars] := by
    rw [CString.join_chars, names_append relative, names_single named.plain.nonempty named.clean]
  have rooted : isAbsolute ((front.foldl CString.join base).join last).chars =
      isAbsolute (front.foldl CString.join base).chars := by
    rw [CString.join_chars, isAbsolute_append relative]
  rcases separator with rfl | rfl
  · rw [List.foldl_append, List.foldl_cons, List.foldl_nil]
    exact ⟨joined, rooted⟩
  · have nothing : isAbsolute CString.empty.chars = false := rfl
    rw [List.foldl_append, List.foldl_cons, List.foldl_cons, List.foldl_nil]
    refine ⟨?_, ?_⟩
    · rw [CString.join_chars, names_append nothing, joined, CString.empty_chars, names_nil,
        List.append_nil]
    · rw [CString.join_chars, isAbsolute_append nothing, rooted]

theorem components_endsWith {before : List Path}
    (ends : names path.chars = before ++ [last.chars]) :
    ∃ root, EndsWith last path.components (root ++ before.map cStr) := by
  obtain ⟨root, slash, split, separator⟩ := components_concat ends
  refine ⟨root.map cStr, slash.map cStr, ?_, ?_⟩
  · simp [CString.components, split]
  · rcases separator with rfl | rfl
    · exact .inl rfl
    · exact .inr rfl

theorem processLink_endsWith (named : NamedLast last) (ends : EndsWith last rest front)
    (target : CString) : ∃ before, names (processLink target rest).chars = before ++ [last.chars] := by
  have joined := (foldl_join_endsWith named ends target).1
  exact ⟨_, names_lexicallyNormal_concat named.plain joined⟩

theorem keepsLast_of_move (named : NamedLast last) (move : FindMove w true state after)
    (more : 1 < state.namesLeft) (keeps : KeepsLast last state) : KeepsLast last after := by
  cases move with
  | entered found passed =>
      obtain ⟨before, ends⟩ := keeps
      obtain ⟨root, ends⟩ := components_endsWith ends
      rw [(passed_of_follow passed).1]
      exact ⟨_, ends⟩
  | child there free found passed =>
      obtain ⟨front, ends⟩ := keeps
      rw [(passed_of_follow passed).1]
      exact ⟨_, ends.tail (ends.front_ne_nil more)⟩
  | relativeLink there free found linked relative =>
      obtain ⟨front, ends⟩ := keeps
      obtain ⟨_, target, _, rfl⟩ := processInode_link linked
      obtain ⟨before, ends⟩ := processLink_endsWith named (ends.tail (ends.front_ne_nil more)) target
      obtain ⟨root, ends⟩ := components_endsWith ends
      exact ⟨_, ends⟩
  | relativeMount there mount relative =>
      obtain ⟨front, ends⟩ := keeps
      obtain ⟨before, ends⟩ := processLink_endsWith named (ends.tail (ends.front_ne_nil more)) _
      obtain ⟨root, ends⟩ := components_endsWith ends
      exact ⟨_, ends⟩
  | memfsMount there mount held =>
      obtain ⟨front, ends⟩ := keeps
      exact ⟨_, (foldl_join_endsWith named (ends.tail (ends.front_ne_nil more)) .empty).1⟩

theorem meets_of_leave (left : FindLeave w true state lnk st) (more : 1 < state.namesLeft)
    (keeps : KeepsLast last state) :
    ∃ target behind front, Meets w state target behind ∧ lnk = processLink target behind ∧
      EndsWith last behind front := by
  cases left with
  | start found linked =>
      obtain ⟨_, target, link, rfl⟩ := processInode_link linked
      obtain ⟨before, names⟩ := keeps
      obtain ⟨root, ends⟩ := components_endsWith names
      have present : root ++ before.map cStr ≠ [] := by
        intro none
        obtain ⟨_, none⟩ := List.append_eq_nil_iff.mp none
        rw [List.map_eq_nil_iff.mp none] at names
        simp [FindState.namesLeft, names] at more
      exact ⟨target, _, _, .start found link, rfl, ends.tail present⟩
  | link there free found linked =>
      obtain ⟨_, target, link, rfl⟩ := processInode_link linked
      obtain ⟨front, ends⟩ := keeps
      exact ⟨target, _, _, .link there free found link, rfl, ends.tail (ends.front_ne_nil more)⟩
  | mount there mount =>
      obtain ⟨front, ends⟩ := keeps
      exact ⟨_, _, _, .mount there mount, rfl, ends.tail (ends.front_ne_nil more)⟩

/-- With the last name taken off, what is left names the directory it is in. -/
theorem host_of_endsWith (named : NamedLast last) (ends : EndsWith last rest front)
    (absolute : isAbsolute (processLink target rest).chars = true) :
    isAbsolute (processLink target front).chars = true ∧
      names (processLink target rest).chars =
        names (processLink target front).chars ++ [last.chars] ∧
      (Below tebakoMountPoint (processLink target front).chars →
        Below tebakoMountPoint (processLink target rest).chars) := by
  obtain ⟨joined, rooted⟩ := foldl_join_endsWith named ends target
  have whole : isAbsolute (rest.foldl CString.join target).chars = true := by
    rwa [processLink, CString.normal_chars, isAbsolute_lexicallyNormal] at absolute
  have part : isAbsolute (front.foldl CString.join target).chars = true := rooted ▸ whole
  refine ⟨?_, ?_, ?_⟩
  · rw [processLink, CString.normal_chars, isAbsolute_lexicallyNormal, part]
  · rw [processLink, processLink, CString.normal_chars, CString.normal_chars,
      names_lexicallyNormal_concat named.plain joined, whole,
      names_lexicallyNormal_of_absolute part]
  · intro below
    have head := (below_iff_head mountPoint_nonempty mountPoint_clean part).mp below
    refine (below_iff_head mountPoint_nonempty mountPoint_clean whole).mpr ?_
    rw [outline, part] at head
    rw [outline, whole, joined, collapse_concat named.plain, List.head?_append, head]
    rfl

theorem MemfsPath.start_keeps (memfsPath : MemfsPath p)
    (starts : Request.start w (.stat p) = .ok start) (more : 1 < start.namesLeft) :
    ∃ last, NamedLast last ∧ (names p.chars).getLast? = some last.chars ∧ KeepsLast last start := by
  simp only [Request.start] at starts
  split at starts
  · rename_i root adjusted there strips
    cases starts
    rcases strips_of_below memfsPath.below with ⟨_, same⟩ | ⟨rest, spelled, same⟩
    · obtain rfl : adjusted = .empty := Option.some.inj (strips.symm.trans same)
      simp [FindState.namesLeft] at more
    · obtain rfl : adjusted = rest := Option.some.inj (strips.symm.trans same)
      have split : names p.chars = names tebakoMountPoint ++ names adjusted.chars := by
        rw [spelled, names_append_separator]
      rcases List.eq_nil_or_concat (names adjusted.chars) with none | ⟨before, name, ends⟩
      · simp [FindState.namesLeft, none] at more
      · rw [List.concat_eq_append] at ends
        have member : name ∈ names p.chars := by simp [split, ends]
        have normal : collapse true (names p.chars) = names p.chars := by
          rw [← names_lexicallyNormal_of_absolute (isAbsolute_of_below memfsPath.below)]
          exact congrArg (fun path => names path.chars) memfsPath.normal
        have plain : Plain name := plain_of_mem_collapse (normal ▸ member)
        have clean := (mem_names member).2
        have noNul : Char.ofNat 0 ∉ name := fun nul =>
          p.noNul (mem_of_mem_segment (List.mem_filter.mp member).1 nul)
        have chars : (cStr name).chars = name := cStr_chars_of_noNul noNul
        refine ⟨cStr name, ⟨by rwa [chars], by rwa [chars]⟩, ?_, before, by rw [ends, chars]⟩
        rw [split, ends, chars, ← List.append_assoc, List.getLast?_concat]
  · cases starts

theorem outside_starts (ran : dwarfsStat w fuel p true = some (.ok (.linkOutside lnk st))) :
    ∃ start, Request.start w (.stat p) = .ok start ∧
      Returns (findBody w true) start (.ok (.linkAbsolute lnk st)) ∧ isTebakoPath lnk = false := by
  obtain ⟨start, starts, _⟩ := @Request.started w true (.stat p) fuel _ ran
  exact ⟨start, starts, (dwarfsStat_outside_iff starts).mp ⟨fuel, ran⟩⟩

/-- Where no last name leads out of the memfs, a link outside is met before the
last name and leads to the directory it is in. -/
theorem entry_of_outside (memfsPath : MemfsPath p) (safe : ¬ LastLeadsOut w p)
    (starts : Request.start w (.stat p) = .ok start)
    (finished : Returns (findBody w true) start (.ok (.linkAbsolute lnk st)))
    (unknown : isTebakoPath lnk = false) : ∃ host, ParentOutside w p host ∧ EntryOf host p lnk := by
  have more : ∀ state, Relation.ReflTransGen (Moves (findBody w true)) start state →
      1 < state.namesLeft := by
    intro state reached
    by_contra few
    exact safe ⟨state, lnk, st, ⟨start, starts, reached⟩, by omega,
      (returns_of_reaches reached).mp finished, unknown⟩
  obtain ⟨last, named, final, keeps⟩ := memfsPath.start_keeps starts (more start .refl)
  obtain ⟨ended, _, ⟨reached, keeps⟩, stopped⟩ :=
    @Returns.invariant _ _ _ _ _
      (fun state => Relation.ReflTransGen (Moves (findBody w true)) start state ∧
        KeepsLast last state) finished
      (fun state after holds moved => ⟨holds.1.tail moved,
        keepsLast_of_move named (findMove_of_next moved) (more state holds.1) holds.2⟩)
      ⟨.refl, keeps⟩
  cases findHalt_of_halt stopped with
  | absolute left absolute =>
      obtain ⟨target, behind, front, meets, rfl, ends⟩ :=
        meets_of_leave left (more ended reached) keeps
      obtain ⟨hostAbsolute, entry, below⟩ := host_of_endsWith named ends absolute
      refine ⟨processLink target front, ⟨ended, target, behind, front, last,
        ⟨start, starts, reached⟩, meets, ends, final, rfl, hostAbsolute, ?_⟩,
        ⟨absolute, _, final, entry⟩⟩
      intro inside
      rw [isTebakoPath_of_below (below inside)] at unknown
      cases unknown

theorem not_leadsOut_of_keeps (known : toTebakoPath w.cwd path = some p)
    (keeps : KeepsImage w call path p) : ¬ LastLeadsOut w p := by
  intro leads
  obtain ⟨state, lnk, st, ⟨start, starts, reached⟩, few, returned, unknown⟩ := leads
  have finished := (returns_of_reaches reached).mpr returned
  obtain ⟨fuel, ran⟩ := (dwarfsStat_outside_iff starts).mpr ⟨finished, unknown⟩
  have inside : ParentInside w p := ⟨start, (state, 0), starts, nested_reaches reached, few⟩
  have refused := keeps.imageKept inside fuel _ ran
  rw [NameCall.run_eq known, ran] at refused
  cases refused

/-- The read-only image is safe from these calls exactly when no name in it
leads out of the memfs. -/
theorem keepsImage_iff (w : World) (call : NameCall) (path p : CString)
    (known : toTebakoPath w.cwd path = some p) (memfsPath : MemfsPath p) :
    KeepsImage w call path p ↔ ¬ LastLeadsOut w p := by
  refine ⟨not_leadsOut_of_keeps known, fun safe => ⟨?_, ?_⟩⟩
  · intro fuel change ran
    rw [NameCall.run_eq known] at ran
    obtain ⟨found, stat, asked⟩ := Option.map_eq_some_iff.mp ran
    rcases found with errno | (st | ⟨lnk, st⟩ | ⟨lnk, st⟩ | ⟨lnk, st⟩)
    · cases asked
    · cases asked
    · cases asked
    · cases asked
    · cases asked
      obtain ⟨start, starts, finished, unknown⟩ := outside_starts stat
      obtain ⟨host, parent, entry⟩ := entry_of_outside memfsPath safe starts finished unknown
      exact ⟨host, lnk, parent, entry, rfl⟩
  · intro inside fuel found ran
    rw [NameCall.run_eq known, ran]
    rcases found with errno | (st | ⟨lnk, st⟩ | ⟨lnk, st⟩ | ⟨lnk, st⟩)
    · rfl
    · rfl
    · rfl
    · rfl
    · obtain ⟨start, starts, finished, unknown⟩ := outside_starts ran
      exact absurd (lastLeadsOut_of_inside starts finished unknown inside) safe

/-- A root image with a link `a` to a directory of the host. -/
def linkToTmp : Memfs := .ofLinks [(cStr ['a'], cStr ['/', 't', 'm', 'p'])]

def linkToTmpWorld : World := .ofLinks [(cStr ['a'], cStr ['/', 't', 'm', 'p'])] (.error .ENOENT)

/-- A file in the directory behind the link is the host's to remove. -/
theorem unlink_behind_link :
    KeepsImage linkToTmpWorld .unlink (belowMountPoint ['a', '/', 'f']) (belowMountPoint ['a', '/', 'f']) := by
  refine (keepsImage_iff _ _ _ _ (by decide) ⟨by decide, by decide⟩).mpr ?_
  intro leads
  obtain ⟨state, lnk, st, ⟨start, starts, reached⟩, few, _⟩ := leads
  have started : Request.start linkToTmpWorld (.stat (belowMountPoint ['a', '/', 'f'])) =
      .ok (.start linkToTmp 0 (cStr ['a', '/', 'f'])) := by rfl
  obtain rfl := Except.ok.inj (starts.symm.trans started)
  have entered : findBody linkToTmpWorld true (.start linkToTmp 0 (cStr ['a', '/', 'f'])) =
      .next (.walk linkToTmp ⟨0⟩ ⟨0, 0o040755, 0⟩ [cStr ['a'], cStr ['f']]) := by rfl
  have left : findBody linkToTmpWorld true
        (.walk linkToTmp ⟨0⟩ ⟨0, 0o040755, 0⟩ [cStr ['a'], cStr ['f']]) =
      .halt (.ok (.linkAbsolute (cStr ['/', 't', 'm', 'p', '/', 'f']) ⟨1, 0o120777, 0⟩)) := by rfl
  rcases reached.cases_head with rfl | ⟨middle, moved, rest⟩
  · revert few
    decide
  · obtain rfl := Step.next.inj (entered.symm.trans moved)
    rcases rest.cases_head with rfl | ⟨beyond, moved, _⟩
    · revert few
      decide
    · exact absurd (left.symm.trans moved) (by simp)

/-- The link itself is an entry of the image; what is removed in its place is
the host's directory. -/
theorem rmdir_of_link_not_refused : ¬ ∀ w call path p, toTebakoPath w.cwd path = some p →
    MemfsPath p → KeepsImage w call path p := by
  intro always
  have keeps := always linkToTmpWorld .rmdir (belowMountPoint ['a']) (belowMountPoint ['a']) (by decide)
    ⟨by decide, by decide⟩
  have inside : ParentInside linkToTmpWorld (belowMountPoint ['a']) :=
    ⟨.start linkToTmp 0 (cStr ['a']), _, by rfl, .refl, by decide⟩
  have found : dwarfsStat linkToTmpWorld 9 (belowMountPoint ['a']) true =
      some (.ok (.linkOutside (cStr ['/', 't', 'm', 'p']) ⟨1, 0o120777, 0⟩)) := by rfl
  have refused := keeps.imageKept inside 9 _ found
  have removed : NameCall.run linkToTmpWorld 9 (belowMountPoint ['a']) .rmdir =
      some (.host (.rmdir (cStr ['/', 't', 'm', 'p']))) := by rfl
  rw [removed] at refused
  cases refused

end Tebako
