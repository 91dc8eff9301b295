import Tebako.Data.Loop
import Tebako.IoHelpers
import Tebako.MemfsTable
import Tebako.MountTable

namespace Tebako

open Data Data.LexicalPath

/-! Finding an inode by its path, through links, mount points and other images. -/

/-- What the lookup of a path depends on. -/
structure World where
  memfsTable : MemfsTable
  mountTable : MountTable
  cwd : Cwd
  hostStat : CString → Except Errno FileStat

/-- `DWARFS_IO_CONTINUE` and the three codes for links; a failed lookup is an
error number instead. -/
inductive Lookup where
  | inode (st : FileStat)
  | linkRelative (lnk : CString) (st : FileStat)
  | linkAbsolute (lnk : CString) (st : FileStat)
  | linkOutside (lnk : CString) (st : FileStat)
deriving DecidableEq

def processLink (lnk : CString) (rest : List CString) : CString :=
  (rest.foldl CString.join lnk).normal

/-- An inode on the way: passed, with what is left of the path after it, or a
link to be followed. -/
inductive Inspected where
  | passed (rest : List CString)
  | link (lnk : CString)

/-- Only at a link does the iterator move, so the caller may find it moved. -/
def Memfs.processInode (memfs : Memfs) (pi : InodeView) (follow : Bool) (rest : List CString) :
    Except Errno (FileStat × Inspected) := do
  let st ← memfs.getattr pi
  if st.isLnk then
    if rest.tail ≠ [] ∨ follow = true then
      let lnk ← memfs.fs.readlink pi
      return (st, .link (processLink lnk rest.tail))
    else
      return (st, .passed rest.tail)
  else
    return (st, .passed rest)

/-- Where `find_inode` is: at its beginning, or at the inode `pi` of an image,
with attributes and the rest of a path. -/
inductive FindState where
  | start (memfs : Memfs) (startFrom : UInt32) (path : CString)
  | walk (memfs : Memfs) (pi : InodeView) (st : FileStat) (rest : List CString)

abbrev FindStep := Step FindState (Except Errno Lookup)

/-- A relative link is resolved from the directory it was met in. -/
def reparse (memfs : Memfs) (pi : InodeView) (st : FileStat) (lnk : CString) : FindStep :=
  if isAbsolute lnk.chars then .halt (.ok (.linkAbsolute lnk st))
  else .next (.walk memfs pi st lnk.components)

variable (w : World)

/-- One round of `find_inode`. Going on in a mounted image is a step like any other. -/
def findBody (follow : Bool) : FindState → FindStep
  | .start memfs startFrom path =>
      match memfs.find startFrom with
      | none => .halt (.error .ENOENT)
      | some pi =>
          match memfs.processInode pi follow path.components with
          | .error errno => .halt (.error errno)
          | .ok (st, .passed rest) => .next (.walk memfs pi st rest)
          | .ok (st, .link lnk) =>
              .halt (.ok (if isAbsolute lnk.chars then .linkAbsolute lnk st else .linkRelative lnk st))
  | .walk _ _ st [] => .halt (.ok (.inode st))
  | .walk memfs pi st (name :: rest) =>
      if name.chars = [] then .halt (.ok (.inode st))
      else
        match w.mountTable[(memfs.reported pi, name.chars)]? with
        | some (.path target) => reparse memfs pi st (processLink target rest)
        | some (.memfs index) =>
            match w.memfsTable[index]? with
            | none => .halt (.error .ENOENT)
            | some mounted =>
                .next (.start mounted mounted.dwarfsRootInode (rest.foldl CString.join .empty))
        | none =>
            match memfs.findChild (memfs.reported pi) name with
            | none => .halt (.error .ENOENT)
            | some child =>
                match memfs.processInode child follow (name :: rest) with
                | .error errno => .halt (.error errno)
                | .ok (st, .passed rest) => .next (.walk memfs child st rest.tail)
                | .ok (st, .link lnk) => reparse memfs pi st lnk

/-- A result, or `none` when the steps allowed have been used up. -/
abbrev Attempt := Option (Except Errno Lookup)

/-- `tebako_stat` looks at the host file where a path leads there. -/
def World.statOutside : Except Errno Lookup → Except Errno Lookup
  | .ok (.linkOutside lnk _) => (w.hostStat lnk).map .inode
  | found => found

section Recursion

/-! The functions from here to `tebako_stat` call each other; `findInodeAbs`
closes the circle. -/

variable (again : Memfs → UInt32 → CString → Bool → Attempt)

def findInodeRootVia (memfs : Memfs) (path : CString) (follow : Bool) : Attempt :=
  match adjustedPath path with
  | none => some (.error .ENOENT)
  | some adjusted => again memfs memfs.dwarfsRootInode adjusted follow

def dwarfsStatVia (path : CString) (follow : Bool) : Attempt :=
  match rootMemfsCall w.memfsTable .ok with
  | .error errno => some (.error errno)
  | .ok memfs => findInodeRootVia again memfs path follow

def tebakoStatVia (path : CString) : Attempt :=
  match toTebakoPath w.cwd path with
  | none => some ((w.hostStat path).map .inode)
  | some path => (dwarfsStatVia w again path true).map w.statOutside

/-- What `find_inode_abs` makes of the result of `find_inode`. -/
def followAbs (follow : Bool) : Except Errno Lookup → Attempt
  | .ok (.linkAbsolute lnk st) =>
      if isTebakoPath lnk then
        if follow then tebakoStatVia w again lnk else some (.ok (.inode st))
      else some (.ok (.linkOutside lnk st))
  | found => some found

end Recursion

def findInodeAbs : Nat → Memfs → UInt32 → CString → Bool → Attempt
  | 0, _, _, _, _ => none
  | fuel + 1, memfs, startFrom, path, follow =>
      (Loop.run (findBody w follow) (fuel + 1) (.start memfs startFrom path)).bind
        (followAbs w (findInodeAbs fuel) follow)

def dwarfsStat (fuel : Nat) : CString → Bool → Attempt := dwarfsStatVia w (findInodeAbs w fuel)

def tebakoStat (fuel : Nat) : CString → Attempt := tebakoStatVia w (findInodeAbs w fuel)

def dwarfsInodeRelativeStat (fuel : Nat) (inode : UInt32) (path : CString) (follow : Bool) :
    Attempt :=
  match inodeMemfsCall w.memfsTable (fun memfs _ => .ok memfs) inode with
  | .error errno => some (.error errno)
  | .ok memfs => findInodeAbs w fuel memfs inode path follow

/-! ## What one round can do -/

section Rounds

/-- The rounds that `find_inode` goes on after. -/
inductive FindMove (w : World) (follow : Bool) : FindState → FindState → Prop where
  | entered {memfs : Memfs} {inode : UInt32} {path : CString} {pi : InodeView} {st : FileStat}
      {rest : List CString} (found : memfs.find inode = some pi)
      (passed : memfs.processInode pi follow path.components = .ok (st, .passed rest)) :
      FindMove w follow (.start memfs inode path) (.walk memfs pi st rest)
  | child {memfs : Memfs} {pi child : InodeView} {st before : FileStat} {name : CString}
      {rest left : List CString} (named : name.chars ≠ [])
      (free : w.mountTable[(memfs.reported pi, name.chars)]? = none)
      (found : memfs.findChild (memfs.reported pi) name = some child)
      (passed : memfs.processInode child follow (name :: rest) = .ok (st, .passed left)) :
      FindMove w follow (.walk memfs pi before (name :: rest)) (.walk memfs child st left.tail)
  | relativeLink {memfs : Memfs} {pi child : InodeView} {st before : FileStat} {name lnk : CString}
      {rest : List CString} (named : name.chars ≠ [])
      (free : w.mountTable[(memfs.reported pi, name.chars)]? = none)
      (found : memfs.findChild (memfs.reported pi) name = some child)
      (linked : memfs.processInode child follow (name :: rest) = .ok (st, .link lnk))
      (relative : isAbsolute lnk.chars = false) :
      FindMove w follow (.walk memfs pi before (name :: rest)) (.walk memfs pi st lnk.components)
  | relativeMount {memfs : Memfs} {pi : InodeView} {st : FileStat} {name target : CString}
      {rest : List CString} (named : name.chars ≠ [])
      (mount : w.mountTable[(memfs.reported pi, name.chars)]? = some (.path target))
      (relative : isAbsolute (processLink target rest).chars = false) :
      FindMove w follow (.walk memfs pi st (name :: rest))
        (.walk memfs pi st (processLink target rest).components)
  | memfsMount {memfs mounted : Memfs} {pi : InodeView} {st : FileStat} {name : CString}
      {rest : List CString} {index : UInt32} (named : name.chars ≠ [])
      (mount : w.mountTable[(memfs.reported pi, name.chars)]? = some (.memfs index))
      (held : w.memfsTable[index]? = some mounted) :
      FindMove w follow (.walk memfs pi st (name :: rest))
        (.start mounted mounted.dwarfsRootInode (rest.foldl CString.join .empty))

/-- The rounds that end at an absolute link or mount point. -/
inductive FindLeave (w : World) (follow : Bool) : FindState → CString → FileStat → Prop where
  | start {memfs : Memfs} {inode : UInt32} {path lnk : CString} {pi : InodeView} {st : FileStat}
      (found : memfs.find inode = some pi)
      (linked : memfs.processInode pi follow path.components = .ok (st, .link lnk)) :
      FindLeave w follow (.start memfs inode path) lnk st
  | link {memfs : Memfs} {pi child : InodeView} {st before : FileStat} {name lnk : CString}
      {rest : List CString} (named : name.chars ≠ [])
      (free : w.mountTable[(memfs.reported pi, name.chars)]? = none)
      (found : memfs.findChild (memfs.reported pi) name = some child)
      (linked : memfs.processInode child follow (name :: rest) = .ok (st, .link lnk)) :
      FindLeave w follow (.walk memfs pi before (name :: rest)) lnk st
  | mount {memfs : Memfs} {pi : InodeView} {st : FileStat} {name target : CString}
      {rest : List CString} (named : name.chars ≠ [])
      (mount : w.mountTable[(memfs.reported pi, name.chars)]? = some (.path target)) :
      FindLeave w follow (.walk memfs pi st (name :: rest)) (processLink target rest) st

/-- What a round that ends the loop ends it with. -/
inductive FindHalt (w : World) (follow : Bool) : FindState → Except Errno Lookup → Prop where
  | failed {state : FindState} (errno : Errno) : FindHalt w follow state (.error errno)
  | inode {memfs : Memfs} {pi : InodeView} {st : FileStat} {rest : List CString}
      (ended : ∀ name ∈ rest.head?, name.chars = []) :
      FindHalt w follow (.walk memfs pi st rest) (.ok (.inode st))
  | relative {state : FindState} {lnk : CString} {st : FileStat}
      (left : FindLeave w follow state lnk st) (relative : isAbsolute lnk.chars = false) :
      FindHalt w follow state (.ok (.linkRelative lnk st))
  | absolute {state : FindState} {lnk : CString} {st : FileStat}
      (left : FindLeave w follow state lnk st) (absolute : isAbsolute lnk.chars = true) :
      FindHalt w follow state (.ok (.linkAbsolute lnk st))

variable {w : World} {follow : Bool} {memfs : Memfs} {lnk : CString} {pi : InodeView}
variable {st : FileStat} {state after : FindState}

theorem passed_cases {rest left : List CString}
    (passed : memfs.processInode pi follow rest = .ok (st, .passed left)) :
    memfs.getattr pi = .ok st ∧
      (st.isLnk = false ∧ left = rest ∨
        st.isLnk = true ∧ follow = false ∧ rest.tail = [] ∧ left = rest.tail) := by
  simp only [Memfs.processInode, Bind.bind, Except.bind] at passed
  cases stat : memfs.getattr pi with
  | error errno => simp [stat] at passed
  | ok attributes =>
      simp only [stat] at passed
      split at passed
      · rename_i link
        split at passed
        · split at passed <;> cases passed
        · rename_i last
          cases passed
          simp only [not_or, ne_eq, Decidable.not_not, Bool.not_eq_true] at last
          exact ⟨rfl, .inr ⟨link, last.2, last.1, rfl⟩⟩
      · rename_i plain
        cases passed
        exact ⟨rfl, .inl ⟨eq_false_of_ne_true plain, rfl⟩⟩

theorem processInode_passed {rest left : List CString}
    (passed : memfs.processInode pi follow rest = .ok (st, .passed left)) :
    memfs.getattr pi = .ok st ∧ (left = rest ∨ left = rest.tail) := by
  obtain ⟨stat, file | link⟩ := passed_cases passed
  · exact ⟨stat, .inl file.2⟩
  · exact ⟨stat, .inr link.2.2.2⟩

theorem passed_of_follow {rest left : List CString}
    (passed : memfs.processInode pi true rest = .ok (st, .passed left)) :
    left = rest ∧ st.isLnk = false := by
  obtain ⟨_, file | link⟩ := passed_cases passed
  · exact ⟨file.2, file.1⟩
  · cases link.2.1

theorem linked_is_link {rest : List CString}
    (linked : memfs.processInode pi follow rest = .ok (st, .link lnk)) : st.isLnk = true := by
  simp only [Memfs.processInode, Bind.bind, Except.bind] at linked
  cases stat : memfs.getattr pi with
  | error errno => simp [stat] at linked
  | ok attributes =>
      simp only [stat] at linked
      split at linked
      · rename_i link
        split at linked
        · split at linked
          · cases linked
          · cases linked
            exact link
        · cases linked
      · cases linked

theorem processInode_link {rest : List CString}
    (linked : memfs.processInode pi follow rest = .ok (st, .link lnk)) :
    memfs.getattr pi = .ok st ∧
      ∃ target, memfs.fs.readlink pi = .ok target ∧ lnk = processLink target rest.tail := by
  simp only [Memfs.processInode, Bind.bind, Except.bind] at linked
  cases stat : memfs.getattr pi with
  | error errno => simp [stat] at linked
  | ok attributes =>
      simp only [stat] at linked
      split at linked
      · split at linked
        · cases answered : memfs.fs.readlink pi with
          | error errno => simp [answered] at linked
          | ok target =>
              simp only [answered] at linked
              cases linked
              exact ⟨rfl, target, rfl, rfl⟩
        · cases linked
      · cases linked

theorem processInode_file {rest : List CString} (stat : memfs.getattr pi = .ok st)
    (file : st.isLnk = false) : memfs.processInode pi follow rest = .ok (st, .passed rest) := by
  simp only [Memfs.processInode, Bind.bind, Except.bind, stat, file, Bool.false_eq_true, ↓reduceIte]
  rfl

/-- The last inode of a path that is not followed. -/
theorem processInode_last {name : CString} (stat : memfs.getattr pi = .ok st) :
    ∃ left, memfs.processInode pi false [name] = .ok (st, .passed left) ∧ left.tail = [] := by
  cases link : st.isLnk with
  | false => exact ⟨[name], processInode_file stat link, rfl⟩
  | true =>
      refine ⟨[], ?_, rfl⟩
      simp only [Memfs.processInode, Bind.bind, Except.bind, stat, link, List.tail_cons, ne_eq, not_true_eq_false,
        Bool.false_eq_true, or_self, ↓reduceIte]
      rfl

theorem processInode_followed {rest : List CString} {target : CString}
    (stat : memfs.getattr pi = .ok st) (link : st.isLnk = true)
    (read : memfs.fs.readlink pi = .ok target) (follows : rest.tail ≠ [] ∨ follow = true) :
    memfs.processInode pi follow rest = .ok (st, .link (processLink target rest.tail)) := by
  simp only [Memfs.processInode, Bind.bind, Except.bind, stat, link, follows, read, ↓reduceIte]
  rfl

theorem reparse_next (moved : reparse memfs pi st lnk = .next after) :
    isAbsolute lnk.chars = false ∧ after = .walk memfs pi st lnk.components := by
  cases absolute : isAbsolute lnk.chars with
  | true => simp [reparse, absolute] at moved
  | false =>
      simp only [reparse, absolute, Bool.false_eq_true, ↓reduceIte, Step.next.injEq] at moved
      exact ⟨rfl, moved.symm⟩

theorem reparse_halt {found : Except Errno Lookup} (stopped : reparse memfs pi st lnk = .halt found) :
    isAbsolute lnk.chars = true ∧ found = .ok (.linkAbsolute lnk st) := by
  cases absolute : isAbsolute lnk.chars with
  | true =>
      simp only [reparse, absolute, ↓reduceIte, Step.halt.injEq] at stopped
      exact ⟨rfl, stopped.symm⟩
  | false => simp [reparse, absolute] at stopped

theorem findMove_of_next (moved : findBody w follow state = .next after) :
    FindMove w follow state after := by
  cases state with
  | start memfs inode path =>
      cases found : memfs.find inode with
      | none => simp [findBody, found] at moved
      | some pi =>
          cases inspected : memfs.processInode pi follow path.components with
          | error errno => simp [findBody, found, inspected] at moved
          | ok seen =>
              obtain ⟨st, rest | lnk⟩ := seen
              · simp only [findBody, found, inspected, Step.next.injEq] at moved
                exact moved ▸ .entered found inspected
              · simp [findBody, found, inspected] at moved
  | walk memfs pi st rest =>
      cases rest with
      | nil => simp [findBody] at moved
      | cons name rest =>
          by_cases named : name.chars = []
          · simp [findBody, named] at moved
          · simp only [findBody, named, ↓reduceIte] at moved
            cases mount : w.mountTable[(memfs.reported pi, name.chars)]? with
            | some there =>
                cases there with
                | path target =>
                    simp only [mount] at moved
                    obtain ⟨relative, rfl⟩ := reparse_next moved
                    exact .relativeMount named mount relative
                | memfs index =>
                    cases held : w.memfsTable[index]? with
                    | none => simp [mount, held] at moved
                    | some mounted =>
                        simp only [mount, held, Step.next.injEq] at moved
                        exact moved ▸ .memfsMount named mount held
            | none =>
                cases found : memfs.findChild (memfs.reported pi) name with
                | none => simp [mount, found] at moved
                | some child =>
                    cases inspected : memfs.processInode child follow (name :: rest) with
                    | error errno => simp [mount, found, inspected] at moved
                    | ok seen =>
                        obtain ⟨attributes, left | lnk⟩ := seen
                        · simp only [mount, found, inspected, Step.next.injEq] at moved
                          exact moved ▸ .child named mount found inspected
                        · simp only [mount, found, inspected] at moved
                          obtain ⟨relative, rfl⟩ := reparse_next moved
                          exact .relativeLink named mount found inspected relative

theorem findBody_of_move (move : FindMove w follow state after) :
    findBody w follow state = .next after := by
  cases move with
  | entered found passed => simp only [findBody, found, passed]
  | child named free found passed => simp only [findBody, named, ↓reduceIte, free, found, passed]
  | relativeLink named free found linked relative =>
      simp only [findBody, named, ↓reduceIte, free, found, linked, reparse, relative,
        Bool.false_eq_true]
  | relativeMount named mount relative =>
      simp only [findBody, named, ↓reduceIte, mount, reparse, relative, Bool.false_eq_true]
  | memfsMount named mount held => simp only [findBody, named, ↓reduceIte, mount, held]

theorem findBody_ended {rest : List CString} (ended : ∀ name ∈ rest.head?, name.chars = []) :
    findBody w follow (.walk memfs pi st rest) = .halt (.ok (.inode st)) := by
  cases rest with
  | nil => rfl
  | cons name later => simp [findBody, ended name (by simp)]

theorem findBody_of_leave (left : FindLeave w follow state lnk st)
    (absolute : isAbsolute lnk.chars = true) :
    findBody w follow state = .halt (.ok (.linkAbsolute lnk st)) := by
  cases left with
  | start found linked => simp only [findBody, found, linked, absolute, ↓reduceIte]
  | link named free found linked =>
      simp only [findBody, named, ↓reduceIte, free, found, linked, reparse, absolute]
  | mount named mount => simp only [findBody, named, ↓reduceIte, mount, reparse, absolute]

theorem findHalt_of_halt {found : Except Errno Lookup}
    (stopped : findBody w follow state = .halt found) : FindHalt w follow state found := by
  cases state with
  | start memfs inode path =>
      cases seen : memfs.find inode with
      | none =>
          simp only [findBody, seen, Step.halt.injEq] at stopped
          exact stopped ▸ .failed .ENOENT
      | some pi =>
          cases inspected : memfs.processInode pi follow path.components with
          | error errno =>
              simp only [findBody, seen, inspected, Step.halt.injEq] at stopped
              exact stopped ▸ .failed errno
          | ok result =>
              obtain ⟨st, rest | lnk⟩ := result
              · simp [findBody, seen, inspected] at stopped
              · simp only [findBody, seen, inspected, Step.halt.injEq] at stopped
                subst stopped
                cases absolute : isAbsolute lnk.chars with
                | true => exact .absolute (.start seen inspected) absolute
                | false => exact .relative (.start seen inspected) absolute
  | walk memfs pi st rest =>
      cases rest with
      | nil =>
          simp only [findBody, Step.halt.injEq] at stopped
          exact stopped ▸ .inode (by simp)
      | cons name rest =>
          by_cases named : name.chars = []
          · simp only [findBody, named, ↓reduceIte, Step.halt.injEq] at stopped
            exact stopped ▸ .inode (by simp [named])
          · simp only [findBody, named, ↓reduceIte] at stopped
            cases mount : w.mountTable[(memfs.reported pi, name.chars)]? with
            | some there =>
                cases there with
                | path target =>
                    simp only [mount] at stopped
                    obtain ⟨absolute, rfl⟩ := reparse_halt stopped
                    exact .absolute (.mount named mount) absolute
                | memfs index =>
                    cases held : w.memfsTable[index]? with
                    | none =>
                        simp only [mount, held, Step.halt.injEq] at stopped
                        exact stopped ▸ .failed .ENOENT
                    | some mounted => simp [mount, held] at stopped
            | none =>
                cases seen : memfs.findChild (memfs.reported pi) name with
                | none =>
                    simp only [mount, seen, Step.halt.injEq] at stopped
                    exact stopped ▸ .failed .ENOENT
                | some child =>
                    cases inspected : memfs.processInode child follow (name :: rest) with
                    | error errno =>
                        simp only [mount, seen, inspected, Step.halt.injEq] at stopped
                        exact stopped ▸ .failed errno
                    | ok result =>
                        obtain ⟨attributes, left | lnk⟩ := result
                        · simp [mount, seen, inspected] at stopped
                        · simp only [mount, seen, inspected] at stopped
                          obtain ⟨absolute, rfl⟩ := reparse_halt stopped
                          exact .absolute (.link named mount seen inspected) absolute

theorem processLink_head {target : CString} {rest : List CString}
    (relative : isAbsolute (processLink target rest).chars = false)
    (present : target.chars ≠ [] ∨ ∃ name ∈ rest, name.chars ≠ []) :
    ¬ ∀ name ∈ (processLink target rest).components.head?, name.chars = [] := by
  intro ended
  have present : (processLink target rest).chars ≠ [] :=
    lexicallyNormal_ne_nil (CString.foldl_join_ne_nil present)
  cases split : (processLink target rest).components with
  | nil => exact CString.components_ne_nil present relative split
  | cons name later => exact CString.components_head relative split (ended name (by simp [split]))

end Rounds

/-- An image with a root directory and symlinks in it, by name and target. -/
def Dwarfs.ofLinks (links : List (CString × CString)) : Dwarfs where
  find inode := if inode.toNat ≤ links.length then some ⟨inode⟩ else none
  findChild inode name :=
    if inode = 0 then
      (links.findIdx? (·.1 = name)).map fun index => ⟨UInt32.ofNat (index + 1)⟩
    else none
  getattr view := .ok (if view.inodeNum = 0 then ⟨0o040755, 0⟩ else ⟨0o120777, 0⟩)
  readlink view :=
    match links[view.inodeNum.toNat - 1]? with
    | none => .error .EINVAL
    | some link => .ok link.2
  opendir view := if view.inodeNum = 0 then some ⟨0⟩ else none
  dirsize _ := links.length
  readdir _ index :=
    links[index]?.map fun link => (⟨UInt32.ofNat (index + 1)⟩, link.1.chars)
  read _ _ _ := .error .EINVAL

def Memfs.ofLinks (links : List (CString × CString)) : Memfs :=
  { makeMemfs {} [] 0 with fs := .ofLinks links }

def World.ofLinks (links : List (CString × CString)) (host : Except Errno FileStat) : World where
  memfsTable := (∅ : MemfsTable).insertIfNew 0 (.ofLinks links)
  mountTable := ∅
  cwd := .init
  hostStat _ := host

/-- An entry of an image: its number is its place in the list of all entries,
counted from 1. -/
structure ImageEntry where
  parent : UInt32
  name : CString
  mode : UInt32
  target : CString := .empty

def Dwarfs.ofEntries (entries : List ImageEntry) : Dwarfs where
  find inode := if inode.toNat ≤ entries.length then some ⟨inode⟩ else none
  findChild inode name :=
    (entries.findIdx? fun entry => entry.parent = inode ∧ entry.name = name).map
      fun index => ⟨UInt32.ofNat (index + 1)⟩
  getattr view :=
    if view.inodeNum = 0 then .ok ⟨0o040755, 0⟩
    else match entries[view.inodeNum.toNat - 1]? with
      | none => .error .EINVAL
      | some entry => .ok ⟨entry.mode, 0⟩
  readlink view :=
    match entries[view.inodeNum.toNat - 1]? with
    | none => .error .EINVAL
    | some entry => .ok entry.target
  opendir view := some ⟨view.inodeNum⟩
  dirsize _ := 0
  readdir _ _ := none
  read _ _ _ := .ok []

def Memfs.ofEntries (entries : List ImageEntry) : Memfs :=
  { makeMemfs {} [] 0 with fs := .ofEntries entries }

theorem ofEntries_findChild {entries : List ImageEntry} {inode : UInt32} {name : CString}
    {child : InodeView}
    (found : (Memfs.ofEntries entries).findChild inode name = some child) :
    ∃ index entry, entries[index]? = some entry ∧ entry.parent = inode ∧ entry.name = name ∧
      child = ⟨UInt32.ofNat (index + 1)⟩ := by
  obtain ⟨index, place, same⟩ := Option.map_eq_some_iff.mp found
  obtain ⟨bound, holds, _⟩ := List.findIdx?_eq_some_iff_getElem.mp place
  have entry : entries[index].parent = inode - 0 ∧ entries[index].name = name := by
    simpa [Memfs.ofEntries, makeMemfs] using holds
  exact ⟨index, entries[index], List.getElem?_eq_getElem bound, by simpa using entry.1, entry.2,
    same.symm⟩

theorem ofEntries_reported {entries : List ImageEntry} {pi : InodeView} {inode : UInt32}
    (reported : (Memfs.ofEntries entries).reported pi = inode) : pi = ⟨inode⟩ := by
  cases pi
  rw [← reported]
  simp [Memfs.reported, Memfs.ofEntries, makeMemfs]

/-- The root image is the only one mounted. -/
def World.ofRoot (root : Memfs) (mountTable : MountTable) (host : CString → Except Errno FileStat) :
    World where
  memfsTable := (∅ : MemfsTable).insertIfNew 0 root
  mountTable := mountTable
  cwd := .init
  hostStat := host

end Tebako
