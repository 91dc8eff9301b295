import Tebako.InodeNamespace
import Tebako.RelativeLookup
import Tebako.WholeImage

namespace Tebako

open Data Data.Loop Data.LexicalPath Data.LinkTree

/-! The tree that the mounted images and folders are together.

A mount point is an entry of the directory it is in and hides what the image has
under that name: it is the root directory of another image, or a link to a
folder. What a path leads to in this tree is what a lookup finds. -/

/-- An inode of the image with this index, or a folder that is mounted. -/
inductive Node where
  | inode (index : UInt32) (pi : InodeView)
  | folder (target : CString)
deriving DecidableEq

section Tree

variable (w : World)

def World.nodeStat : Node → Except Errno FileStat
  | .inode index pi => memfsCall w.memfsTable (fun memfs => memfs.getattr pi) index
  | .folder _ => .error .ENOENT

/-- What is there at a mount point. -/
def World.mounted : TebakoMountTarget → Option Node
  | .path target => some (.folder target)
  | .memfs index =>
      w.memfsTable[index]?.bind fun memfs => (memfs.find memfs.dwarfsRootInode).map (.inode index)

/-- An entry of an inode. Only directories have mount points in them. -/
def World.entry (index : UInt32) (pi : InodeView) (name : CString) (memfs : Memfs) : Option Node :=
  match w.mountTable[(memfs.reported pi, name.chars)]? with
  | some target => if memfs.isDirectory pi then w.mounted target else none
  | none => (memfs.findChild (memfs.reported pi) name).map (.inode index)

def World.linkTree : LinkTree Node where
  isDir node := ∃ st, w.nodeStat node = .ok st ∧ st.isDir = true
  child node name :=
    match node with
    | .inode index pi => w.memfsTable[index]?.bind (w.entry index pi (cStr name))
    | .folder _ => none
  target
    | .inode index pi => w.memfsTable[index]?.bind fun memfs => memfs.linkTree.target pi
    | .folder target => some target.chars

/-- The images are told apart by their inode numbers, and each is mounted at one
place at most. -/
structure World.Assembled : Prop where
  images : ∀ {index : UInt32} {memfs : Memfs}, w.memfsTable[index]? = some memfs →
    memfs.Whole ∧ Decodes index memfs
  once : ∀ {point other : TebakoMountPoint} {index : UInt32},
    w.mountTable[point]? = some (.memfs index) → w.mountTable[other]? = some (.memfs index) →
    point = other

/-- At a link or a folder, no name is dropped together with a `..` that is itself
a link to a place elsewhere. -/
def World.NextFaithful : FindState → Prop
  | .walk memfs pi _ (name :: rest) =>
      ∀ (index : UInt32) child target, w.memfsTable[index]? = some memfs →
        w.linkTree.child (.inode index pi) name.chars = some child →
        w.linkTree.target child = some target →
        Faithful w.linkTree (.inode index pi) [] (components target ++ rest.map (·.chars))
  | _ => True

end Tree

variable {w : World} {memfs : Memfs} {index : UInt32} {pi : InodeView} {st last : FileStat}
variable {name target : CString} {rest : List CString} {node below finish : Node} {links : Nat}

theorem linkTree_dir (held : w.memfsTable[index]? = some memfs) :
    w.linkTree.isDir (.inode index pi) ↔ memfs.linkTree.isDir pi := by
  simp only [World.linkTree, World.nodeStat, memfsCall, held, Memfs.linkTree]

theorem nodeStat_unique (held : w.memfsTable[index]? = some memfs) (stat : memfs.getattr pi = .ok st)
    (found : w.nodeStat (.inode index pi) = .ok last) : st = last := by
  simp only [World.nodeStat, memfsCall, held, stat, Except.ok.injEq] at found
  exact found

theorem linkTree_entry (held : w.memfsTable[index]? = some memfs) :
    w.linkTree.child (.inode index pi) name.chars = w.entry index pi name memfs := by
  simp only [World.linkTree, held, Option.bind_some, cStr_chars]

/-- The ways that an inode or a folder is entered. -/
inductive Entered (w : World) (memfs : Memfs) (index : UInt32) (pi : InodeView) (name : CString) : Node → Prop where
  | own {child : InodeView} (free : w.mountTable[(memfs.reported pi, name.chars)]? = none)
      (found : memfs.findChild (memfs.reported pi) name = some child) :
      Entered w memfs index pi name (.inode index child)
  | image {other : UInt32} {mounted : Memfs} {root : InodeView} (dir : memfs.linkTree.isDir pi)
      (mount : w.mountTable[(memfs.reported pi, name.chars)]? = some (.memfs other))
      (held : w.memfsTable[other]? = some mounted)
      (found : mounted.find mounted.dwarfsRootInode = some root) :
      Entered w memfs index pi name (.inode other root)
  | folder {target : CString} (dir : memfs.linkTree.isDir pi)
      (mount : w.mountTable[(memfs.reported pi, name.chars)]? = some (.path target)) :
      Entered w memfs index pi name (.folder target)

theorem entered_of_entry (entered : w.entry index pi name memfs = some node) :
    Entered w memfs index pi name node := by
  cases mount : w.mountTable[(memfs.reported pi, name.chars)]? with
  | none =>
      simp only [World.entry, mount, Option.map_eq_some_iff] at entered
      obtain ⟨child, found, rfl⟩ := entered
      exact .own mount found
  | some there =>
      simp only [World.entry, mount, Option.ite_none_right_eq_some] at entered
      obtain ⟨dir, entered⟩ := entered
      rw [isDirectory_iff] at dir
      cases there with
      | path target =>
          obtain rfl := Option.some.inj entered
          exact .folder dir mount
      | memfs other =>
          obtain ⟨mounted, held, there⟩ := Option.bind_eq_some_iff.mp entered
          obtain ⟨root, found, rfl⟩ := Option.map_eq_some_iff.mp there
          exact .image dir mount held found

theorem child_cases {name : Path} (found : w.linkTree.child node name = some below) :
    ∃ index pi memfs, node = .inode index pi ∧ w.memfsTable[index]? = some memfs ∧
      Entered w memfs index pi (cStr name) below := by
  cases node with
  | folder target => cases found
  | inode index pi =>
      obtain ⟨memfs, held, entered⟩ := Option.bind_eq_some_iff.mp found
      exact ⟨index, pi, memfs, rfl, held, entered_of_entry entered⟩

/-! ## One directory above each other -/

/-- A number that two directories report is reported by one. -/
theorem eq_of_reported (assembled : w.Assembled) {other : UInt32} {otherMemfs : Memfs} {otherPi : InodeView}
    (held : w.memfsTable[index]? = some memfs) (otherHeld : w.memfsTable[other]? = some otherMemfs)
    (dir : memfs.linkTree.isDir pi) (otherDir : otherMemfs.linkTree.isDir otherPi)
    (same : memfs.reported pi = otherMemfs.reported otherPi) : index = other ∧ pi = otherPi := by
  obtain ⟨whole, decodes⟩ := assembled.images held
  obtain ⟨otherWhole, otherDecodes⟩ := assembled.images otherHeld
  obtain ⟨here, number⟩ := decodes pi (whole.numbers dir)
  obtain ⟨there, otherNumber⟩ := otherDecodes otherPi (otherWhole.numbers otherDir)
  rw [same] at here number
  refine ⟨here.symm.trans there, ?_⟩
  have numbers := number.symm.trans otherNumber
  cases pi
  cases otherPi
  rw [InodeView.mk.injEq]
  exact UInt32.toNat.inj (by simpa using congrArg UInt64.toNat numbers)

theorem World.Assembled.oneParent (assembled : w.Assembled) {above other : Node} {name further : Path}
    (first : w.linkTree.child above name = some node) (second : w.linkTree.child other further = some node)
    (dir : w.linkTree.isDir node) : above = other := by
  obtain ⟨index, pi, memfs, rfl, held, entered⟩ := child_cases first
  obtain ⟨otherIndex, otherPi, otherMemfs, rfl, otherHeld, otherEntered⟩ := child_cases second
  cases entered with
  | own free found =>
      generalize same : Node.inode index _ = node at otherEntered
      cases otherEntered with
      | own otherFree otherFound =>
          cases same
          obtain rfl := Option.some.inj (held.symm.trans otherHeld)
          have proper := (assembled.images held).1.stores.proper
          have here : memfs.linkTree.child pi name = some _ := found
          have there : memfs.linkTree.child otherPi further = some _ := otherFound
          obtain rfl := proper.oneParent ((linkTree_dir held).mp dir) here there
          rfl
      | image otherDir mount rootHeld root =>
          cases same
          obtain rfl := Option.some.inj (held.symm.trans rootHeld)
          exact absurd found ((assembled.images held).1.topmost root)
      | folder otherDir mount => cases same
  | image hereDir mount rootHeld root =>
      generalize same : Node.inode _ _ = node at otherEntered
      cases otherEntered with
      | own otherFree otherFound =>
          cases same
          obtain rfl := Option.some.inj (otherHeld.symm.trans rootHeld)
          exact absurd otherFound ((assembled.images otherHeld).1.topmost root)
      | image otherDir otherMount otherRootHeld otherRoot =>
          cases same
          have reported := congrArg Prod.fst (assembled.once mount otherMount)
          obtain ⟨rfl, rfl⟩ := eq_of_reported assembled held otherHeld hereDir otherDir reported
          rfl
      | folder otherDir mount => cases same
  | folder hereDir mount =>
      obtain ⟨st, stat, _⟩ := dir
      cases stat

theorem World.Assembled.proper (assembled : w.Assembled) : w.linkTree.Proper where
  holder := by
    intro node name below entered
    obtain ⟨index, pi, memfs, rfl, held, entered⟩ := child_cases entered
    rw [linkTree_dir held]
    cases entered with
    | own free found =>
        have here : memfs.linkTree.child pi name = some _ := found
        exact (assembled.images held).1.stores.proper.holder here
    | image dir mount rootHeld root => exact dir
    | folder dir mount => exact dir
  oneParent dir first second := assembled.oneParent first second dir

/-! ## The lookup -/

/-- Behind a link, the lookup goes on with a path that leads where the link and
the rest of the path do. -/
theorem walk_behind_link {tree : LinkTree ν} {start there : ν} (proper : tree.Proper)
    (present : target.chars ≠ []) (relative : isAbsolute target.chars = false)
    (trailing : Trailing (rest.map (·.chars)))
    (faithful : Faithful tree start [] (components target.chars ++ rest.map (·.chars)))
    (walk : Walk tree links start (components target.chars ++ rest.map (·.chars)) there) :
    ∃ fewer, fewer ≤ links ∧
      Walk tree fewer start ((processLink target rest).components.map (·.chars)) there := by
  have clean := clean_of_trailing trailing
  have spells := CString.spells_foldl_join (spells_components relative) clean
  rw [CString.components_chars, processLink, CString.normal_chars]
  exact walk.lexicallyNormal proper spells (CString.foldl_join_ne_nil (.inl present))
    ((CString.isAbsolute_foldl_join clean).trans relative) faithful

theorem named_of_trailing {list : List Path} (trailing : Trailing list) :
    ∃ body ending, Named body ∧ Ending ending ∧ list = body ++ ending := by
  induction list with
  | nil => exact ⟨[], [], by simp [Named], .inl rfl, rfl⟩
  | cons name rest ih =>
      by_cases empty : name = []
      · obtain rfl := trailing.2.1 empty
        exact ⟨[], [[]], by simp [Named], .inr rfl, by rw [empty]; rfl⟩
      · obtain ⟨body, ending, named, ends, rfl⟩ := ih trailing.2.2
        refine ⟨name :: body, ending, ?_, ends, rfl⟩
        intro other member
        rcases List.mem_cons.mp member with rfl | later
        · exact ⟨empty, trailing.1⟩
        · exact named other later

/-- In a mounted image the lookup has the names left that it had before; a
separator is lost where there is none. -/
theorem names_in_mounted (trailing : Trailing (rest.map (·.chars))) :
    rest.map (·.chars) = [[]] ∧ (rest.foldl CString.join .empty).components = [] ∨
      (rest.foldl CString.join .empty).components = rest := by
  obtain ⟨body, ending, named, ends, split⟩ := named_of_trailing trailing
  have listed := components_foldl_join named ends split
  rw [← CString.components_chars] at listed
  by_cases bare : body = [] ∧ ending = [[]]
  · obtain ⟨rfl, rfl⟩ := bare
    exact .inl ⟨split, by simpa using listed⟩
  · refine .inr (eq_of_map_chars ?_)
    rw [listed, split]
    rcases ends with rfl | rfl
    · simp
    · have present : body ≠ [] := fun empty => bare ⟨empty, rfl⟩
      simp [present]

/-- The lookup goes down to an entry that is no link, which may be in another image. -/
theorem reaches_entry (entered : Entered w memfs index pi name below) (assembled : w.Assembled)
    (held : w.memfsTable[index]? = some memfs) (named : name.chars ≠ [])
    (trailing : Trailing (rest.map (·.chars))) (file : w.linkTree.target below = none) :
    ∃ (other : UInt32) (image : Memfs) (child : InodeView) (after : FileStat) (left : List CString),
      below = .inode other child ∧ w.memfsTable[other]? = some image ∧ image.getattr child = .ok after ∧
      Relation.ReflTransGen (Moves (findBody w true)) (.walk memfs pi st (name :: rest))
        (.walk image child after left) ∧
      (rest.map (·.chars) = [[]] ∧ left = [] ∨ left = rest) := by
  cases entered with
  | @own child free found =>
      have stores := (assembled.images held).1.stores
      have file : memfs.linkTree.target child = none := by
        simpa only [World.linkTree, held, Option.bind_some] using file
      obtain ⟨after, stat⟩ := stores.attributes found
      have passed := @processInode_file true memfs child after (name :: rest) stat
        (linkTree_file stores stat file)
      have moved : Moves (findBody w true) (.walk memfs pi st (name :: rest)) (.walk memfs child after rest) :=
        findBody_of_move (.child named free found passed)
      exact ⟨index, memfs, child, after, rest, rfl, held, stat, .single moved, .inr rfl⟩
  | @image other mounted root dir mount rootHeld found =>
      obtain ⟨after, stat, dir⟩ := (assembled.images rootHeld).1.rootDir found
      have passed := @processInode_file true mounted root after (rest.foldl CString.join .empty).components stat
        (isLnk_of_isDir dir)
      have grafted : Moves (findBody w true) (.walk memfs pi st (name :: rest)) _ :=
        findBody_of_move (.memfsMount named mount rootHeld)
      have moved : Moves (findBody w true) _ (.walk mounted root after _) :=
        findBody_of_move (.entered found passed)
      exact ⟨other, mounted, root, after, _, rfl, rootHeld, stat, .tail (.single grafted) moved,
        names_in_mounted trailing⟩
  | folder dir mount => cases file

/-- A link, or a folder that is mounted, is replaced by its target. -/
theorem moves_behind_link (entered : Entered w memfs index pi name below) (assembled : w.Assembled)
    (held : w.memfsTable[index]? = some memfs) {text : Path} (named : name.chars ≠ [])
    (trailing : Trailing (rest.map (·.chars))) (linked : w.linkTree.target below = some text)
    (relative : isAbsolute text = false) :
    ∃ after target, target.chars = text ∧ isAbsolute (processLink target rest).chars = false ∧
      Moves (findBody w true) (.walk memfs pi st (name :: rest))
        (.walk memfs pi after (processLink target rest).components) := by
  cases entered with
  | @own child free found =>
      have linked : memfs.linkTree.target child = some text := by
        simpa only [World.linkTree, held, Option.bind_some] using linked
      obtain ⟨after, target, stat, link, read, rfl⟩ := linkTree_target linked
      have stays := (@isAbsolute_processLink target rest trailing).trans relative
      have followed := @processInode_followed true memfs child after (name :: rest) target stat link read
        (.inr rfl)
      exact ⟨after, target, rfl, stays, findBody_of_move (.relativeLink named free found followed stays)⟩
  | @image other mounted root dir mount rootHeld found =>
      have linked : mounted.linkTree.target root = some text := by
        simpa only [World.linkTree, rootHeld, Option.bind_some] using linked
      obtain ⟨after, target, stat, link, _, _⟩ := linkTree_target linked
      obtain ⟨attributes, same, directory⟩ := (assembled.images rootHeld).1.rootDir found
      obtain rfl := Except.ok.inj (stat.symm.trans same)
      rw [isLnk_of_isDir directory] at link
      cases link
  | @folder target dir mount =>
      obtain rfl : target.chars = text := Option.some.inj linked
      have stays := (@isAbsolute_processLink target rest trailing).trans relative
      exact ⟨st, target, rfl, stays, findBody_of_move (.relativeMount named mount stays)⟩

/-- The induction is on the links still to be replaced, and for as many links on
the names that are left. -/
theorem returns_in_namespace (assembled : w.Assembled) (held : w.memfsTable[index]? = some memfs)
    (found : w.nodeStat finish = .ok last) (trailing : Trailing (rest.map (·.chars)))
    (ended : (∀ name ∈ rest.head?, name.chars = []) → memfs.getattr pi = .ok st)
    (safe : ∀ state, Relation.ReflTransGen (Moves (findBody w true)) (.walk memfs pi st rest) state →
      NextNamed state ∧ w.NextFaithful state)
    (walk : Walk w.linkTree links (.inode index pi) (rest.map (·.chars)) finish) :
    Returns (findBody w true) (.walk memfs pi st rest) (.ok (.inode last)) := by
  induction links using Nat.strongRecOn generalizing index memfs pi st rest with
  | ind links fewerLinks =>
      induction rest generalizing index memfs pi st with
      | nil =>
          obtain rfl := nodeStat_unique held (ended (by simp)) (walk.eq_of_nil ▸ found)
          exact returns_of_halt rfl
      | cons name rest ih =>
          by_cases empty : name.chars = []
          · obtain rfl := List.map_eq_nil_iff.mp (trailing.2.1 empty)
            have same := (walk.of_nothing (.inl empty)).eq_of_nil
            obtain rfl := nodeStat_unique held (ended (by simpa using empty)) (same ▸ found)
            exact returns_of_halt (by simp [findBody, empty])
          · obtain ⟨next, faithful⟩ := safe _ .refl
            rcases walk.of_plain ⟨empty, next.1, next.2⟩ with
              ⟨below, child, file, walk⟩ | ⟨fewer, below, text, rfl, child, linked, present, relative, walk⟩
            · rw [linkTree_entry held] at child
              obtain ⟨other, image, inside, after, left, rfl, imageHeld, stat, moved, same⟩ :=
                reaches_entry (entered_of_entry child) assembled held empty trailing.2.2 file
              rw [returns_of_reaches moved]
              rcases same with ⟨bare, rfl⟩ | rfl
              · rw [bare] at walk
                have same := (walk.of_nothing (.inl rfl)).eq_of_nil
                obtain rfl := nodeStat_unique imageHeld stat (same ▸ found)
                exact returns_of_halt rfl
              · exact ih imageHeld trailing.2.2 (fun _ => stat)
                  (fun state path => safe state (moved.trans path)) walk
            · rw [linkTree_entry held] at child
              obtain ⟨after, target, rfl, stays, moved⟩ := moves_behind_link (entered_of_entry child)
                assembled held empty trailing.2.2 linked relative
              have faithful := faithful index below target.chars held
                ((linkTree_entry held).trans child) linked
              obtain ⟨fewest, bound, walk⟩ :=
                walk_behind_link assembled.proper present relative trailing.2.2 faithful walk
              rw [returns_iff_of_next moved]
              refine fewerLinks fewest (by omega) held ?_ ?_
                (fun state path => safe state (path.head moved)) walk
              · rw [CString.components_chars]
                exact trailing_components stays
              · intro head
                exact absurd head (processLink_head stays (.inl present))

theorem namespace_lookup {inode : UInt32} {path : CString} (assembled : w.Assembled)
    (held : w.memfsTable[index]? = some memfs) (found : memfs.find inode = some pi)
    (dir : memfs.linkTree.isDir pi) (relative : isAbsolute path.chars = false)
    (safe : ∀ state, Relation.ReflTransGen (Moves (findBody w true)) (.start memfs inode path) state →
      NextNamed state ∧ w.NextFaithful state)
    (leads : w.linkTree.Leads (.inode index pi) (components path.chars) finish)
    (stat : w.nodeStat finish = .ok st) :
    Returns (findBody w true) (.start memfs inode path) (.ok (.inode st)) := by
  obtain ⟨links, walk⟩ := leads
  obtain ⟨attributes, here, directory⟩ := dir
  have passed := @processInode_file true memfs pi attributes path.components here (isLnk_of_isDir directory)
  have moved : findBody w true (.start memfs inode path) = .next (.walk memfs pi attributes path.components) :=
    findBody_of_move (.entered found passed)
  rw [returns_iff_of_next moved]
  refine returns_in_namespace assembled held stat ?_ (fun _ => here)
    (fun state reached => safe state (reached.head moved)) (path.components_chars.symm ▸ walk)
  rw [CString.components_chars]
  exact trailing_components relative

theorem relative_below {path : CString} (below : Below tebakoMountPoint path.chars) (normal : path.normal = path) :
    isAbsolute (path.drop (tebakoMountPointLength + 1)).chars = false := by
  have absolute := isAbsolute_of_below below
  have same : lexicallyNormal path.chars = path.chars := congrArg CString.chars normal
  obtain ⟨rest, outlined⟩ := outline_below absolute (same.symm ▸ below)
  have named := named_outline outlined
  rcases segments_below mountPoint_nonempty mountPoint_clean absolute outlined with
    ⟨bare, _, _⟩ | ⟨below, split, segments⟩
  · rw [same] at bare
    have nothing : (path.drop (tebakoMountPointLength + 1)).chars = [] := by
      change path.chars.drop (tebakoMountPointLength + 1) = []
      rw [bare]
      decide
    rw [nothing]
    rfl
  · rw [same] at split
    have inside : (path.drop (tebakoMountPointLength + 1)).chars = below := by
      change path.chars.drop (tebakoMountPointLength + 1) = below
      rw [split]
      rfl
    rw [inside]
    exact isAbsolute_of_segments (fun name member => (named name member).1) segments

/-- The path names something in the memfs, and leads to the node in the tree. At
the links that the lookup meets, no name is dropped together with a `..` that
leads elsewhere. -/
structure World.LeadsTo (w : World) (given path : CString) (finish : Node) (st : FileStat) : Prop where
  assembled : w.Assembled
  known : toTebakoPath w.cwd given = some path
  below : Below tebakoMountPoint path.chars
  normal : path.normal = path
  leads : ∃ root pi, w.memfsTable[(0 : UInt32)]? = some root ∧ root.find root.dwarfsRootInode = some pi ∧
    (∀ state, Relation.ReflTransGen (Moves (findBody w true))
      (.start root root.dwarfsRootInode (path.drop (tebakoMountPointLength + 1))) state →
      NextNamed state ∧ w.NextFaithful state) ∧
    w.linkTree.Leads (.inode 0 pi) (components (path.drop (tebakoMountPointLength + 1)).chars) finish
  stat : w.nodeStat finish = .ok st

theorem World.LeadsTo.dwarfsStat {given path : CString} (reached : w.LeadsTo given path finish st) :
    ∃ enough, ∀ fuel ≥ enough, dwarfsStat w fuel path true = some (.ok (.inode st)) := by
  obtain ⟨root, pi, held, found, safe, leads⟩ := reached.leads
  have returned := namespace_lookup reached.assembled held found ((reached.assembled.images held).1.rootDir found)
    (relative_below reached.below reached.normal) safe leads reached.stat
  obtain ⟨enough, ran⟩ := answers_start_iff.mp (⟨_, returned, 0, rfl⟩ :
    Answers w true (.start root root.dwarfsRootInode (path.drop (tebakoMountPointLength + 1))) (.ok (.inode st)))
  have adjusted := adjustedPath_of_below reached.below
  refine ⟨enough, fun fuel more => ?_⟩
  simp only [Tebako.dwarfsStat, dwarfsStatVia, rootMemfsCall, memfsCall, held, findInodeRootVia, adjusted]
  exact findInodeAbs_mono more ran

/-- What `stat` reports is what the path leads to in the tree of all mounted
images and folders, through mount points and relative links. -/
theorem stat_in_namespace (w : World) (root : Memfs) (pi : InodeView) (given path : CString)
    (assembled : w.Assembled) (held : w.memfsTable[(0 : UInt32)]? = some root)
    (found : root.find root.dwarfsRootInode = some pi) (known : toTebakoPath w.cwd given = some path)
    (below : Below tebakoMountPoint path.chars) (normal : path.normal = path)
    (safe : ∀ state, Relation.ReflTransGen (Moves (findBody w true))
      (.start root root.dwarfsRootInode (path.drop (tebakoMountPointLength + 1))) state →
      NextNamed state ∧ w.NextFaithful state)
    (finish : Node) (st : FileStat)
    (leads : w.linkTree.Leads (.inode 0 pi) (components (path.drop (tebakoMountPointLength + 1)).chars) finish)
    (stat : w.nodeStat finish = .ok st) :
    ∃ enough, ∀ fuel ≥ enough, dwarfsStat w fuel path true = some (.ok (.inode st)) ∧
      tebakoStat w fuel given = some (.ok (.inode st)) := by
  have reached : w.LeadsTo given path finish st :=
    ⟨assembled, known, below, normal, ⟨root, pi, held, found, safe, leads⟩, stat⟩
  obtain ⟨enough, ran⟩ := reached.dwarfsStat
  refine ⟨enough, fun fuel more => ⟨ran fuel more, ?_⟩⟩
  have finds : dwarfsStatVia w (findInodeAbs w fuel) path true = some (.ok (.inode st)) := ran fuel more
  simp only [tebakoStat, tebakoStatVia, known, finds, Option.map_some, World.statOutside]

theorem faithful_of_descending {tree : LinkTree ν} {start : ν} {list kept : List Path}
    (descends : dotDot ∉ list) : Faithful tree start kept list := by
  induction list generalizing kept with
  | nil => trivial
  | cons name rest ih =>
      simp only [List.mem_cons, not_or] at descends
      exact ⟨fun up => absurd up.symm descends.1, ih descends.2⟩

/-- Where nothing leads up, nothing is dropped together with a `..`. -/
theorem nextFaithful_of_descending
    (images : ∀ {index : UInt32} {memfs : Memfs} {pi : InodeView} {text : Path},
      w.memfsTable[index]? = some memfs → memfs.linkTree.target pi = some text → dotDot ∉ components text)
    (folders : ∀ {point : TebakoMountPoint} {target : CString}, w.mountTable[point]? = some (.path target) →
      dotDot ∉ components target.chars)
    (descends : dotDot ∉ rest.map (·.chars)) : w.NextFaithful (.walk memfs pi st rest) := by
  have own : ∀ {index : UInt32} {memfs : Memfs} {pi : InodeView} {text : Path}, w.memfsTable[index]? = some memfs →
      w.linkTree.target (.inode index pi) = some text → dotDot ∉ components text := by
    intro index memfs pi text held linked
    simp only [World.linkTree, held, Option.bind_some] at linked
    exact images held linked
  cases rest with
  | nil => trivial
  | cons name rest =>
      intro index child target held found linked
      have inside : dotDot ∉ components target := by
        rw [linkTree_entry held] at found
        cases entered_of_entry found with
        | own free found => exact own held linked
        | image dir mount rootHeld root => exact own rootHeld linked
        | folder dir mount =>
            obtain rfl := Option.some.inj linked
            exact folders mount
      apply faithful_of_descending
      intro up
      rcases List.mem_append.mp up with first | later
      · exact inside first
      · exact descends (List.mem_cons_of_mem _ later)

/-! ## An image mounted in a directory -/

/-- A directory `d` and a link `l` to it. -/
def outerEntries : List ImageEntry :=
  [⟨0, cStr ['d'], 0o040755, .empty⟩, ⟨0, cStr ['l'], 0o120777, cStr ['d']⟩]

/-- A file `f`. -/
def innerEntries : List ImageEntry := [⟨0, cStr ['f'], 0o100644, .empty⟩]

def outerImage : Memfs := .ofEntries outerEntries

def innerImage : Memfs := (Memfs.ofEntries innerEntries).setRootInode (fsInoFromFsAndIno 1 0).toUInt32

/-- One image is mounted in the directory of the other, and in it a folder that
is the file. -/
def graftedWorld : World where
  memfsTable := (Std.ExtTreeMap.insert ∅ 0 outerImage).insert 1 innerImage
  mountTable := (Std.ExtTreeMap.insert ∅ (1, ['m']) (.memfs 1)).insert (2 ^ 31, ['n']) (.path (cStr ['f']))
  cwd := .init
  hostStat _ := .error .ENOENT

theorem graftedWorld_images (held : graftedWorld.memfsTable[index]? = some memfs) :
    index = 0 ∧ memfs = outerImage ∨ index = 1 ∧ memfs = innerImage := by
  simp only [graftedWorld, Std.ExtTreeMap.getElem?_insert, Std.LawfulEqCmp.compare_eq_iff_eq] at held
  split at held
  · rename_i one
    exact .inr ⟨one.symm, (Option.some.inj held).symm⟩
  · split at held
    · rename_i zero
      exact .inl ⟨zero.symm, (Option.some.inj held).symm⟩
    · simp at held

theorem graftedWorld_mounts {point : TebakoMountPoint} {target : TebakoMountTarget}
    (mount : graftedWorld.mountTable[point]? = some target) :
    point = (1, ['m']) ∧ target = .memfs 1 ∨ target = .path (cStr ['f']) := by
  simp only [graftedWorld, Std.ExtTreeMap.getElem?_insert, Std.LawfulEqCmp.compare_eq_iff_eq] at mount
  split at mount
  · exact .inr (Option.some.inj mount).symm
  · split at mount
    · rename_i same
      exact .inl ⟨same.symm, (Option.some.inj mount).symm⟩
    · simp at mount

theorem graftedWorld_assembled : graftedWorld.Assembled where
  images := by
    intro index memfs held
    have placedOuter : EntriesPlaced outerEntries := by
      intro entry member
      simp only [outerEntries, List.mem_cons, List.not_mem_nil, or_false] at member
      rcases member with rfl | rfl
      · exact ⟨by decide, by decide, ⟨0o040755, 0⟩, by rfl, by decide⟩
      · exact ⟨by decide, by decide, ⟨0o040755, 0⟩, by rfl, by decide⟩
    have placedInner : EntriesPlaced innerEntries := by
      intro entry member
      obtain rfl := List.mem_singleton.mp member
      exact ⟨by decide, by decide, ⟨0o040755, 0⟩, by rfl, by decide⟩
    rcases graftedWorld_images held with ⟨rfl, rfl⟩ | ⟨rfl, rfl⟩
    · exact ⟨@whole_of_entries outerImage outerEntries rfl (by decide) placedOuter,
        (decodes_iff (by rfl)).mpr (by decide)⟩
    · exact ⟨@whole_of_entries innerImage innerEntries rfl (by decide) placedInner,
        (decodes_iff (by rfl)).mpr (by decide)⟩
  once := by
    intro point other index first second
    rcases graftedWorld_mounts first with ⟨here, _⟩ | wrong
    · rcases graftedWorld_mounts second with ⟨there, _⟩ | wrong
      · exact here.trans there.symm
      · cases wrong
    · cases wrong

theorem entries_descend {entries : List ImageEntry} {text : Path} (image : memfs.fs = .ofEntries entries)
    (descend : ∀ entry ∈ entries, dotDot ∉ components entry.target.chars)
    (linked : memfs.linkTree.target pi = some text) : dotDot ∉ components text := by
  obtain ⟨_, target, _, _, read, rfl⟩ := linkTree_target linked
  rw [image] at read
  simp only [Dwarfs.ofEntries] at read
  split at read
  · cases read
  · rename_i entry listed
    cases read
    exact descend entry (List.mem_of_getElem? listed)

theorem graftedWorld_faithful (descends : dotDot ∉ rest.map (·.chars)) :
    graftedWorld.NextFaithful (.walk memfs pi st rest) := by
  refine nextFaithful_of_descending ?_ ?_ descends
  · intro index memfs pi text held linked
    rcases graftedWorld_images held with ⟨rfl, rfl⟩ | ⟨rfl, rfl⟩
    · exact @entries_descend outerImage _ outerEntries _ rfl (by decide) linked
    · exact @entries_descend innerImage _ innerEntries _ rfl (by decide) linked
  · intro point target mount
    rcases graftedWorld_mounts mount with ⟨_, wrong⟩ | same
    · cases wrong
    · cases same
      decide

theorem graftedWorld_walk :
    Walk graftedWorld.linkTree 2 (.inode 0 ⟨0⟩) [['l'], ['m'], ['n']] (.inode 1 ⟨1⟩) := by
  have link : graftedWorld.linkTree.child (.inode 0 ⟨0⟩) ['l'] = some (.inode 0 ⟨2⟩) := by decide +kernel
  have target : graftedWorld.linkTree.target (.inode 0 ⟨2⟩) = some ['d'] := by decide +kernel
  have directory : graftedWorld.linkTree.child (.inode 0 ⟨0⟩) ['d'] = some (.inode 0 ⟨1⟩) := by decide +kernel
  have mount : graftedWorld.linkTree.child (.inode 0 ⟨1⟩) ['m'] = some (.inode 1 ⟨0⟩) := by decide +kernel
  have folder : graftedWorld.linkTree.child (.inode 1 ⟨0⟩) ['n'] = some (.folder (cStr ['f'])) := by
    decide +kernel
  have file : graftedWorld.linkTree.child (.inode 1 ⟨0⟩) ['f'] = some (.inode 1 ⟨1⟩) := by decide +kernel
  refine .link (by decide) link target (by decide) (by decide) ?_
  refine .down (by decide) directory (by decide +kernel) ?_
  refine .down (by decide) mount (by decide +kernel) ?_
  refine .link (by decide) folder rfl (by decide) (by decide) ?_
  exact .down (by decide) file (by decide +kernel) (.here _)

theorem stat_in_grafted_image : ∃ enough, ∀ fuel ≥ enough,
    dwarfsStat graftedWorld fuel (belowMountPoint ['l', '/', 'm', '/', 'n']) true =
        some (.ok (.inode ⟨2 ^ 31 + 1, 0o100644, 0⟩)) ∧
      tebakoStat graftedWorld fuel (belowMountPoint ['l', '/', 'm', '/', 'n']) =
        some (.ok (.inode ⟨2 ^ 31 + 1, 0o100644, 0⟩)) := by
  have names : ∀ names : List CString, (∀ name ∈ names.map (·.chars), name ≠ dot ∧ name ≠ dotDot) →
      ∀ memfs pi st, NextNamed (.walk memfs pi st names) ∧ graftedWorld.NextFaithful (.walk memfs pi st names) := by
    intro names clean memfs pi st
    refine ⟨?_, graftedWorld_faithful fun up => (clean _ up).2 rfl⟩
    cases names with
    | nil => trivial
    | cons name rest => exact clean name.chars (List.mem_map_of_mem (List.mem_cons_self ..))
  have path : ((belowMountPoint ['l', '/', 'm', '/', 'n']).drop (tebakoMountPointLength + 1)).chars =
      ['l', '/', 'm', '/', 'n'] := by decide +kernel
  refine stat_in_namespace graftedWorld outerImage ⟨0⟩ (belowMountPoint ['l', '/', 'm', '/', 'n'])
    (belowMountPoint ['l', '/', 'm', '/', 'n']) graftedWorld_assembled (by rfl) (by rfl) (by decide +kernel)
    (by decide +kernel) (by decide +kernel) ?_ (.inode 1 ⟨1⟩) ⟨2 ^ 31 + 1, 0o100644, 0⟩ ?_ (by rfl)
  · refine forall_reached_of_next (by rfl) ⟨trivial, trivial⟩ ?_
    refine forall_reached_of_next (by rfl) (names _ (by decide +kernel) _ _ _) ?_
    refine forall_reached_of_next (by rfl) (names _ (by decide +kernel) _ _ _) ?_
    refine forall_reached_of_next (by rfl) (names _ (by decide +kernel) _ _ _) ?_
    refine forall_reached_of_next (by rfl) ⟨trivial, trivial⟩ ?_
    refine forall_reached_of_next (by rfl) (names _ (by decide +kernel) _ _ _) ?_
    refine forall_reached_of_next (by rfl) (names _ (by decide +kernel) _ _ _) ?_
    exact forall_reached_of_halt (by rfl) (names _ (by decide +kernel) _ _ _)
  · rw [path]
    exact ⟨2, graftedWorld_walk⟩

end Tebako
