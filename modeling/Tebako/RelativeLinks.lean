import Tebako.Data.LinkTree
import Tebako.FindInode

namespace Tebako

open Data Data.Loop Data.LexicalPath Data.LinkTree

/-! Relative paths and relative links.

An image is a tree of directories with links in it, and a relative path is
resolved by walking through the tree. `find_inode` gets by without the way up:
it looks all names up as they stand, and puts the rest of a path behind a link
into its lexical normal form. -/

def Memfs.linkTree (memfs : Memfs) : LinkTree InodeView where
  isDir pi := ∃ st, memfs.getattr pi = .ok st ∧ st.isDir = true
  child pi name := memfs.findChild (memfs.reported pi) (cStr name)
  target pi :=
    match memfs.getattr pi, memfs.fs.readlink pi with
    | .ok st, .ok target => if st.isLnk then some target.chars else none
    | _, _ => none

/-- What there is in an image can be read, and no entry is called `.` or `..`. -/
structure Memfs.Stores (memfs : Memfs) : Prop where
  attributes : ∀ {inode name child}, memfs.findChild inode name = some child →
    ∃ st, memfs.getattr child = .ok st
  targets : ∀ {pi st}, memfs.getattr pi = .ok st → st.isLnk = true →
    ∃ target, memfs.fs.readlink pi = .ok target
  named : ∀ {inode name child}, memfs.findChild inode name = some child →
    name.chars ≠ dot ∧ name.chars ≠ dotDot
  proper : memfs.linkTree.Proper

/-- A lookup gives the inode that the walk of the path leads to. -/
def ResolvesAsPosix (w : World) (memfs : Memfs) (inode : UInt32) (pi : InodeView) (path : CString) :
    Prop :=
  ∀ finish st, memfs.linkTree.Leads pi (components path.chars) finish →
    memfs.getattr finish = .ok st →
    Returns (findBody w true) (.start memfs inode path) (.ok (.inode st))

/-- The name to be looked up next is a name. -/
def NextNamed : FindState → Prop
  | .walk _ _ _ (name :: _) => name.chars ≠ dot ∧ name.chars ≠ dotDot
  | _ => True

/-- At a link, no name is dropped together with a `..` that is itself a link to
a place elsewhere. -/
def NextFaithful : FindState → Prop
  | .walk memfs pi _ (name :: rest) =>
      ∀ child target, memfs.findChild (memfs.reported pi) name = some child →
        memfs.linkTree.target child = some target →
        Faithful memfs.linkTree pi [] (components target ++ rest.map (·.chars))
  | _ => True

variable {w : World} {memfs : Memfs} {pi finish : InodeView} {st last : FileStat}
variable {path name target : CString} {rest : List CString} {inode : UInt32} {links : Nat}

/-! ## The walk and the lookup -/

theorem clean_of_trailing (trailing : Trailing (rest.map (·.chars))) :
    ∀ name ∈ rest, '/' ∉ name.chars := by
  induction rest with
  | nil => simp
  | cons first rest ih =>
      intro name member
      rcases List.mem_cons.mp member with rfl | later
      · exact trailing.1
      · exact ih trailing.2.2 name later

theorem linkTree_child {below : InodeView} (child : memfs.linkTree.child pi name.chars = some below) :
    memfs.findChild (memfs.reported pi) name = some below := by
  simpa [Memfs.linkTree] using child

theorem linkTree_target {text : Path} (linked : memfs.linkTree.target pi = some text) :
    ∃ st target, memfs.getattr pi = .ok st ∧ st.isLnk = true ∧
      memfs.fs.readlink pi = .ok target ∧ target.chars = text := by
  simp only [Memfs.linkTree] at linked
  split at linked
  · rename_i st target stat read
    split at linked
    · rename_i link
      exact ⟨st, target, stat, link, read, Option.some.inj linked⟩
    · cases linked
  · cases linked

theorem linkTree_file (stores : memfs.Stores) (stat : memfs.getattr pi = .ok st)
    (file : memfs.linkTree.target pi = none) : st.isLnk = false := by
  cases link : st.isLnk with
  | false => rfl
  | true =>
      obtain ⟨target, read⟩ := stores.targets stat link
      simp [Memfs.linkTree, stat, read, link] at file

/-- Behind a link, the lookup goes on with a path that leads where the link and
the rest of the path do. -/
theorem walk_processLink (stores : memfs.Stores) (present : target.chars ≠ [])
    (relative : isAbsolute target.chars = false) (trailing : Trailing (rest.map (·.chars)))
    (faithful : Faithful memfs.linkTree pi [] (components target.chars ++ rest.map (·.chars)))
    (walk : Walk memfs.linkTree links pi (components target.chars ++ rest.map (·.chars)) finish) :
    ∃ fewer, fewer ≤ links ∧
      Walk memfs.linkTree fewer pi ((processLink target rest).components.map (·.chars)) finish := by
  have clean := clean_of_trailing trailing
  have spells := CString.spells_foldl_join (spells_components relative) clean
  rw [CString.components_chars, processLink, CString.normal_chars]
  exact walk.lexicallyNormal stores.proper spells (CString.foldl_join_ne_nil (.inl present))
    ((CString.isAbsolute_foldl_join clean).trans relative) faithful

theorem isAbsolute_processLink (trailing : Trailing (rest.map (·.chars))) :
    isAbsolute (processLink target rest).chars = isAbsolute target.chars := by
  rw [processLink, CString.normal_chars, isAbsolute_lexicallyNormal,
    CString.isAbsolute_foldl_join (clean_of_trailing trailing)]

theorem moves_to_file {below : InodeView} (noMounts : w.mountTable = ∅) (stores : memfs.Stores)
    (named : name.chars ≠ []) (child : memfs.linkTree.child pi name.chars = some below)
    (file : memfs.linkTree.target below = none) :
    ∃ after, memfs.getattr below = .ok after ∧
      Moves (findBody w true) (.walk memfs pi st (name :: rest)) (.walk memfs below after rest) := by
  have free : w.mountTable[(memfs.reported pi, name.chars)]? = none := by simp [noMounts]
  have found := linkTree_child child
  obtain ⟨after, stat⟩ := stores.attributes found
  have passed := @processInode_file true memfs below after (name :: rest) stat
    (linkTree_file stores stat file)
  exact ⟨after, stat, findBody_of_move (.child named free found passed)⟩

theorem moves_to_target {below : InodeView} {text : Path} (noMounts : w.mountTable = ∅)
    (named : name.chars ≠ []) (trailing : Trailing (rest.map (·.chars)))
    (child : memfs.linkTree.child pi name.chars = some below)
    (linked : memfs.linkTree.target below = some text) (relative : isAbsolute text = false) :
    ∃ after target, target.chars = text ∧
      isAbsolute (processLink target rest).chars = false ∧
      Moves (findBody w true) (.walk memfs pi st (name :: rest))
        (.walk memfs pi after (processLink target rest).components) := by
  have free : w.mountTable[(memfs.reported pi, name.chars)]? = none := by simp [noMounts]
  have found := linkTree_child child
  obtain ⟨after, target, stat, link, read, rfl⟩ := linkTree_target linked
  have stays := (@isAbsolute_processLink target rest trailing).trans relative
  have followed := @processInode_followed true memfs below after (name :: rest) target stat link read
    (.inr rfl)
  exact ⟨after, target, rfl, stays, findBody_of_move (.relativeLink named free found followed stays)⟩

/-- The induction is on the links still to be replaced, and for as many links on
the names that are left. -/
theorem returns_of_walk (noMounts : w.mountTable = ∅) (stores : memfs.Stores)
    (found : memfs.getattr finish = .ok last) (trailing : Trailing (rest.map (·.chars)))
    (ended : (∀ name ∈ rest.head?, name.chars = []) → memfs.getattr pi = .ok st)
    (safe : ∀ state, Relation.ReflTransGen (Moves (findBody w true)) (.walk memfs pi st rest) state →
      NextNamed state ∧ NextFaithful state)
    (walk : Walk memfs.linkTree links pi (rest.map (·.chars)) finish) :
    Returns (findBody w true) (.walk memfs pi st rest) (.ok (.inode last)) := by
  induction links using Nat.strongRecOn generalizing pi st rest with
  | ind links fewerLinks =>
      induction rest generalizing pi st with
      | nil =>
          obtain rfl := walk.eq_of_nil
          obtain rfl := Except.ok.inj ((ended (by simp)).symm.trans found)
          exact returns_of_halt rfl
      | cons name rest ih =>
          by_cases empty : name.chars = []
          · obtain rfl := List.map_eq_nil_iff.mp (trailing.2.1 empty)
            obtain rfl : pi = finish := (walk.of_nothing (.inl empty)).eq_of_nil
            obtain rfl := Except.ok.inj ((ended (by simpa using empty)).symm.trans found)
            exact returns_of_halt (by simp [findBody, empty])
          · obtain ⟨next, faithful⟩ := safe _ .refl
            rcases walk.of_plain ⟨empty, next.1, next.2⟩ with
              ⟨below, child, file, walk⟩ | ⟨fewer, below, text, rfl, child, linked, present, relative, walk⟩
            · obtain ⟨after, stat, moved⟩ := moves_to_file noMounts stores empty child file
              rw [returns_iff_of_next moved]
              exact ih trailing.2.2 (fun _ => stat)
                (fun state path => safe state (path.head moved)) walk
            · obtain ⟨after, target, rfl, stays, moved⟩ :=
                moves_to_target noMounts empty trailing.2.2 child linked relative
              have faithful := faithful below target.chars (linkTree_child child) linked
              obtain ⟨fewest, bound, walk⟩ :=
                walk_processLink stores present relative trailing.2.2 faithful walk
              rw [returns_iff_of_next moved]
              refine fewerLinks fewest (by omega) ?_ ?_
                (fun state path => safe state (path.head moved)) walk
              · rw [CString.components_chars]
                exact trailing_components stays
              · intro head
                exact absurd head (processLink_head stays (.inl present))

/-- A name that is none is not found. -/
theorem lost_of_not_named (noMounts : w.mountTable = ∅) (stores : memfs.Stores)
    (wrong : ¬ NextNamed (.walk memfs pi st rest)) :
    Returns (findBody w true) (.walk memfs pi st rest) (.error .ENOENT) := by
  cases rest with
  | nil => exact absurd trivial wrong
  | cons name rest =>
      have named : name.chars ≠ [] := by
        intro empty
        exact wrong ⟨by simp [empty, dot], by simp [empty, dotDot]⟩
      have free : w.mountTable[(memfs.reported pi, name.chars)]? = none := by simp [noMounts]
      have lost : memfs.findChild (memfs.reported pi) name = none := by
        cases found : memfs.findChild (memfs.reported pi) name with
        | none => rfl
        | some child => exact absurd (stores.named found) wrong
      exact returns_of_halt (by simp only [findBody, named, ↓reduceIte, free, lost])

def FindState.image : FindState → Memfs
  | .start memfs _ _ => memfs
  | .walk memfs _ _ _ => memfs

theorem image_of_reached {start state : FindState} (noMounts : w.mountTable = ∅)
    (reached : Relation.ReflTransGen (Moves (findBody w true)) start state) :
    state.image = start.image := by
  induction reached with
  | refl => rfl
  | tail _ moved ih =>
      cases findMove_of_next moved with
      | entered found passed => exact ih
      | child named free found passed => exact ih
      | relativeLink named free found linked relative => exact ih
      | relativeMount named mount relative => exact ih
      | memfsMount named mount held => simp [noMounts] at mount

theorem resolvesAsPosix_of_safe (noMounts : w.mountTable = ∅) (stores : memfs.Stores)
    (found : memfs.find inode = some pi) (dir : memfs.linkTree.isDir pi)
    (relative : isAbsolute path.chars = false)
    (safe : ∀ state, Relation.ReflTransGen (Moves (findBody w true)) (.start memfs inode path) state →
      NextNamed state ∧ NextFaithful state) : ResolvesAsPosix w memfs inode pi path := by
  intro finish st leads stat
  obtain ⟨links, walk⟩ := leads
  obtain ⟨attributes, here, dir⟩ := dir
  have passed := @processInode_file true memfs pi attributes path.components here (isLnk_of_isDir dir)
  have moved : findBody w true (.start memfs inode path) =
      .next (.walk memfs pi attributes path.components) := findBody_of_move (.entered found passed)
  have chars := path.components_chars
  rw [returns_iff_of_next moved]
  refine returns_of_walk noMounts stores stat ?_ (fun _ => here)
    (fun state reached => safe state (reached.head moved)) (chars.symm ▸ walk)
  rw [chars]
  exact trailing_components relative

theorem nextNamed_of_resolves {state : FindState} (noMounts : w.mountTable = ∅)
    (stores : memfs.Stores) (resolves : ResolvesAsPosix w memfs inode pi path)
    (leads : memfs.linkTree.Leads pi (components path.chars) finish)
    (stat : memfs.getattr finish = .ok st)
    (reached : Relation.ReflTransGen (Moves (findBody w true)) (.start memfs inode path) state) :
    NextNamed state := by
  by_contra wrong
  have same := image_of_reached noMounts reached
  cases state with
  | start memfs inode path => exact wrong trivial
  | walk image node attributes rest =>
      obtain rfl : image = memfs := same
      have lost := (returns_of_reaches reached).mpr (lost_of_not_named noMounts stores wrong)
      cases lost.unique (resolves finish st leads stat)

/-- A relative path is resolved as in POSIX where all names that are looked up
are names, and no link is dropped with a `..` after it that leads elsewhere.
The first of these is necessary for any path that leads somewhere. -/
theorem relative_path_resolves (w : World) (memfs : Memfs) (inode : UInt32) (pi : InodeView)
    (path : CString) (noMounts : w.mountTable = ∅) (stores : memfs.Stores)
    (found : memfs.find inode = some pi) (dir : memfs.linkTree.isDir pi)
    (relative : isAbsolute path.chars = false) :
    ((∀ state, Relation.ReflTransGen (Moves (findBody w true)) (.start memfs inode path) state →
      NextNamed state ∧ NextFaithful state) → ResolvesAsPosix w memfs inode pi path) ∧
    (ResolvesAsPosix w memfs inode pi path →
      (∃ finish st, memfs.linkTree.Leads pi (components path.chars) finish ∧
        memfs.getattr finish = .ok st) →
      ∀ state, Relation.ReflTransGen (Moves (findBody w true)) (.start memfs inode path) state →
        NextNamed state) := by
  refine ⟨resolvesAsPosix_of_safe noMounts stores found dir relative, ?_⟩
  intro resolves reachable state reached
  obtain ⟨finish, st, leads, stat⟩ := reachable
  exact nextNamed_of_resolves noMounts stores resolves leads stat reached

theorem ofEntries_readlink {entries : List ImageEntry}
    (stat : (Memfs.ofEntries entries).getattr pi = .ok st) (link : st.isLnk = true) :
    ∃ target, (Memfs.ofEntries entries).fs.readlink pi = .ok target := by
  obtain ⟨attr, got, rfl⟩ : ∃ attr, (Dwarfs.ofEntries entries).getattr pi = .ok attr ∧
      (⟨((Memfs.ofEntries entries).reported pi).toUInt64, attr.mode, attr.size⟩ : FileStat) = st := by
    cases got : (Dwarfs.ofEntries entries).getattr pi with
    | error errno => simp [Memfs.getattr, Memfs.ofEntries, got, Except.map] at stat
    | ok attr => exact ⟨attr, rfl, by simpa [Memfs.getattr, Memfs.ofEntries, got, Except.map] using stat⟩
  simp only [Dwarfs.ofEntries] at got
  split at got
  · cases got
    have directory : (0o040755 : UInt32) &&& 0o170000 ≠ 0o120000 := by decide
    exact absurd link (by simpa [FileStat.isLnk, fileTypeMask] using directory)
  · split at got
    · cases got
    · rename_i entry listed
      exact ⟨entry.target, by simp [Memfs.ofEntries, Dwarfs.ofEntries, listed]⟩

/-- A directory `d` with a file `f` in it, and a link `a` to the directory by a
detour. -/
def detour : Memfs := .ofEntries
  [⟨0, cStr ['d'], 0o040755, .empty⟩, ⟨1, cStr ['f'], 0o100644, .empty⟩,
    ⟨0, cStr ['a'], 0o120777, cStr ['d', '/', '.', '.', '/', 'd']⟩]

def detourWorld : World := .ofRoot detour ∅ fun _ => .error .ENOENT

theorem detour_findChild {child : InodeView} (found : detour.findChild inode name = some child) :
    (inode = 0 ∧ name = cStr ['d'] ∧ child = ⟨1⟩) ∨ (inode = 1 ∧ name = cStr ['f'] ∧ child = ⟨2⟩) ∨
      (inode = 0 ∧ name = cStr ['a'] ∧ child = ⟨3⟩) := by
  obtain ⟨index, entry, listed, parent, named, rfl⟩ := ofEntries_findChild found
  match index, listed with
  | 0, listed => cases listed; exact .inl ⟨parent.symm, named.symm, rfl⟩
  | 1, listed => cases listed; exact .inr (.inl ⟨parent.symm, named.symm, rfl⟩)
  | 2, listed => cases listed; exact .inr (.inr ⟨parent.symm, named.symm, rfl⟩)

theorem detour_stores : detour.Stores where
  attributes found := by
    rcases detour_findChild found with ⟨_, _, rfl⟩ | ⟨_, _, rfl⟩ | ⟨_, _, rfl⟩ <;> exact ⟨_, rfl⟩
  targets stat link := ofEntries_readlink stat link
  named found := by
    rcases detour_findChild found with ⟨_, rfl, _⟩ | ⟨_, rfl, _⟩ | ⟨_, rfl, _⟩ <;> decide
  proper := {
    holder := by
      intro node name below found
      rcases detour_findChild found with ⟨here, _, _⟩ | ⟨here, _, _⟩ | ⟨here, _, _⟩
      · exact ofEntries_reported here ▸ ⟨_, rfl, rfl⟩
      · exact ofEntries_reported here ▸ ⟨_, rfl, rfl⟩
      · exact ofEntries_reported here ▸ ⟨_, rfl, rfl⟩
    oneParent := by
      intro node above other name further _ first second
      have places : detour.reported above = detour.reported other := by
        rcases detour_findChild first with ⟨here, _, rfl⟩ | ⟨here, _, rfl⟩ | ⟨here, _, rfl⟩ <;>
          rcases detour_findChild second with ⟨there, _, same⟩ | ⟨there, _, same⟩ | ⟨there, _, same⟩ <;>
          first
          | exact here.trans there.symm
          | cases same
      exact (ofEntries_reported places).trans (ofEntries_reported rfl).symm }

theorem detour_faithful : NextFaithful (.walk detour ⟨0⟩ st [cStr ['a'], cStr ['f']]) := by
  intro child target found linked
  have link : detour.findChild 0 (cStr ['a']) = some ⟨3⟩ := by rfl
  obtain rfl : ⟨3⟩ = child := Option.some.inj (link.symm.trans found)
  have text : detour.linkTree.target ⟨3⟩ = some ['d', '/', '.', '.', '/', 'd'] := by rfl
  obtain rfl : ['d', '/', '.', '.', '/', 'd'] = target := Option.some.inj (text.symm.trans linked)
  refine ⟨fun same => absurd same (by decide), fun _ last before kept _ => ?_,
    fun same => absurd same (by decide), fun same => absurd same (by decide), trivial⟩
  obtain ⟨rfl, rfl⟩ : ['d'] = last ∧ [] = before := List.cons.inj kept
  -- the name before `..` is a directory
  intro node below finish above entry leads child link
  obtain ⟨links, walk⟩ := leads
  obtain rfl := walk.eq_of_nil
  have directory : detour.linkTree.child ⟨0⟩ ['d'] = some ⟨1⟩ := by rfl
  obtain rfl : ⟨1⟩ = below := Option.some.inj (directory.symm.trans child)
  exact absurd rfl link

theorem detour_resolves :
    ResolvesAsPosix detourWorld detour 0 ⟨0⟩ (cStr ['a', '/', 'f']) := by
  refine (relative_path_resolves detourWorld detour 0 ⟨0⟩ _ (by rfl) detour_stores (by rfl)
    ⟨_, by rfl, by rfl⟩ (by decide)).1 ?_
  refine forall_reached_of_next (by rfl) ⟨trivial, trivial⟩ ?_
  refine forall_reached_of_next (by rfl) ⟨⟨by decide, by decide⟩, detour_faithful⟩ ?_
  refine forall_reached_of_next (by rfl) ⟨⟨by decide, by decide⟩, ?_⟩ ?_
  · intro child target found linked
    have directory : detour.findChild 0 (cStr ['d']) = some ⟨1⟩ := by rfl
    obtain rfl : ⟨1⟩ = child := Option.some.inj (directory.symm.trans found)
    cases linked
  refine forall_reached_of_next (by rfl) ⟨⟨by decide, by decide⟩, ?_⟩ ?_
  · intro child target found linked
    have file : detour.findChild 1 (cStr ['f']) = some ⟨2⟩ := by rfl
    obtain rfl : ⟨2⟩ = child := Option.some.inj (file.symm.trans found)
    cases linked
  exact forall_reached_of_halt (by rfl) ⟨trivial, trivial⟩

/-- The current directory is no name of an entry. -/
theorem dot_not_found : ¬ ∀ w memfs inode pi path, w.mountTable = ∅ → memfs.Stores →
    memfs.find inode = some pi → memfs.linkTree.isDir pi → isAbsolute path.chars = false →
    ResolvesAsPosix w memfs inode pi path := by
  intro always
  have resolves := always detourWorld detour 0 ⟨0⟩ (cStr ['.', '/', 'd']) (by rfl) detour_stores
    (by rfl) ⟨_, by rfl, by rfl⟩ (by decide)
  have walk : detour.linkTree.Leads ⟨0⟩ (components ['.', '/', 'd']) ⟨1⟩ :=
    ⟨0, .stay (.inr rfl) ⟨_, by rfl, by rfl⟩
      (.down ⟨by decide, by decide, by decide⟩ (by rfl) (by rfl) (.here _))⟩
  have found : Returns (findBody detourWorld true) (.start detour 0 (cStr ['.', '/', 'd']))
      (.error .ENOENT) := ⟨9, by rfl⟩
  cases found.unique (resolves _ _ walk (by rfl))

end Tebako
