import Mathlib.Logic.Relation
import Tebako.Data.LexicalPath

namespace Tebako.Data

open LexicalPath

/-! Directories, files and symbolic links, and the walk that resolves a pathname
step by step.

A link is replaced by its target, read from the directory that holds the link.
Only relative targets are followed, and there is no way up from the topmost
directory: what is reached is reached without leaving the tree. -/

structure LinkTree (ν : Type u) where
  isDir : ν → Prop
  child : ν → Path → Option ν
  target : ν → Option Path

namespace LinkTree

variable {ν : Type u} {tree : LinkTree ν} {start node middle finish : ν}
variable {name path : Path} {list first second kept : List Path}

/-- Only directories have entries, and no directory is entered in two of them. -/
structure Proper (tree : LinkTree ν) : Prop where
  holder : ∀ {node name below}, tree.child node name = some below → tree.isDir node
  oneParent : ∀ {node above other name further}, tree.isDir node →
    tree.child above name = some node → tree.child other further = some node → above = other

/-- Entered through one directory or several, one in the other. -/
def Below (tree : LinkTree ν) : ν → ν → Prop :=
  Relation.TransGen fun above below => ∃ name, tree.child above name = some below

/-- A walk that replaces `links` links. An empty name, as after a separator at
the end, asks for a directory. -/
inductive Walk (tree : LinkTree ν) : Nat → ν → List Path → ν → Prop where
  | here (node : ν) : Walk tree 0 node [] node
  | stay {links : Nat} {node finish : ν} {name : Path} {rest : List Path}
      (nothing : name = [] ∨ name = dot) (dir : tree.isDir node)
      (walk : Walk tree links node rest finish) : Walk tree links node (name :: rest) finish
  | up {links : Nat} {node above finish : ν} {entry : Path} {rest : List Path}
      (dir : tree.isDir node) (entered : tree.child above entry = some node)
      (walk : Walk tree links above rest finish) : Walk tree links node (dotDot :: rest) finish
  | down {links : Nat} {node below finish : ν} {name : Path} {rest : List Path} (plain : Plain name)
      (found : tree.child node name = some below) (file : tree.target below = none)
      (walk : Walk tree links below rest finish) : Walk tree links node (name :: rest) finish
  | link {links : Nat} {node below finish : ν} {name target : Path} {rest : List Path}
      (plain : Plain name) (found : tree.child node name = some below)
      (linked : tree.target below = some target) (present : target ≠ [])
      (relative : isAbsolute target = false)
      (walk : Walk tree links node (components target ++ rest) finish) :
      Walk tree (links + 1) node (name :: rest) finish

variable {links more : Nat}

theorem Walk.eq_of_nil (walk : Walk tree links node [] finish) : node = finish := by
  cases walk
  rfl

theorem Walk.append (walk : Walk tree links start first middle)
    (later : Walk tree more middle second finish) :
    Walk tree (links + more) start (first ++ second) finish := by
  induction walk with
  | here node => exact (Nat.zero_add more).symm ▸ later
  | stay nothing dir _ ih => exact .stay nothing dir (ih later)
  | up dir entered _ ih => exact .up dir entered (ih later)
  | down plain found file _ ih => exact .down plain found file (ih later)
  | link plain found linked present relative _ ih =>
      rw [Nat.succ_add]
      exact .link plain found linked present relative (List.append_assoc _ _ _ ▸ ih later)

theorem Walk.split (walk : Walk tree links start (first ++ second) finish) :
    ∃ before after middle, before + after = links ∧ Walk tree before start first middle ∧
      Walk tree after middle second finish := by
  generalize whole : first ++ second = names at walk
  induction walk generalizing first with
  | here node =>
      obtain ⟨rfl, rfl⟩ := List.append_eq_nil_iff.mp whole
      exact ⟨0, 0, node, rfl, .here node, .here node⟩
  | @stay links node finish name rest nothing dir walk ih =>
      rcases List.append_eq_cons_iff.mp whole with ⟨rfl, rfl⟩ | ⟨later, rfl, rfl⟩
      · exact ⟨0, links, node, Nat.zero_add _, .here node, .stay nothing dir walk⟩
      · obtain ⟨before, after, middle, sum, front, back⟩ := ih rfl
        exact ⟨before, after, middle, sum, .stay nothing dir front, back⟩
  | @up links node above finish entry rest dir entered walk ih =>
      rcases List.append_eq_cons_iff.mp whole with ⟨rfl, rfl⟩ | ⟨later, rfl, rfl⟩
      · exact ⟨0, links, node, Nat.zero_add _, .here node, .up dir entered walk⟩
      · obtain ⟨before, after, middle, sum, front, back⟩ := ih rfl
        exact ⟨before, after, middle, sum, .up dir entered front, back⟩
  | @down links node below finish name rest plain found file walk ih =>
      rcases List.append_eq_cons_iff.mp whole with ⟨rfl, rfl⟩ | ⟨later, rfl, rfl⟩
      · exact ⟨0, links, node, Nat.zero_add _, .here node, .down plain found file walk⟩
      · obtain ⟨before, after, middle, sum, front, back⟩ := ih rfl
        exact ⟨before, after, middle, sum, .down plain found file front, back⟩
  | @link links node below finish name target rest plain found linked present relative walk ih =>
      rcases List.append_eq_cons_iff.mp whole with ⟨rfl, rfl⟩ | ⟨later, rfl, rfl⟩
      · exact ⟨0, links + 1, node, Nat.zero_add _, .here node,
          .link plain found linked present relative walk⟩
      · obtain ⟨before, after, middle, sum, front, back⟩ :=
          @ih (components target ++ later) (List.append_assoc _ _ _)
        exact ⟨before + 1, after, middle, by omega, .link plain found linked present relative front,
          back⟩

theorem Walk.of_plain (plain : Plain name) (walk : Walk tree links node (name :: list) finish) :
    (∃ below, tree.child node name = some below ∧ tree.target below = none ∧
      Walk tree links below list finish) ∨
    ∃ fewer below target, links = fewer + 1 ∧ tree.child node name = some below ∧
      tree.target below = some target ∧ target ≠ [] ∧ isAbsolute target = false ∧
      Walk tree fewer node (components target ++ list) finish := by
  cases walk with
  | stay nothing dir walk => exact absurd nothing (not_or.mpr ⟨plain.nonempty, plain.notDot⟩)
  | up dir entered walk => exact absurd rfl plain.notDotDot
  | down _ found file walk => exact .inl ⟨_, found, file, walk⟩
  | link _ found linked present relative walk =>
      exact .inr ⟨_, _, _, rfl, found, linked, present, relative, walk⟩

theorem Walk.of_nothing (nothing : name = [] ∨ name = dot)
    (walk : Walk tree links node (name :: list) finish) : Walk tree links node list finish := by
  cases walk with
  | stay _ dir walk => exact walk
  | up dir entered walk => exact absurd nothing (by decide)
  | down plain found file walk => exact absurd nothing (not_or.mpr ⟨plain.nonempty, plain.notDot⟩)
  | link plain found linked present relative walk =>
      exact absurd nothing (not_or.mpr ⟨plain.nonempty, plain.notDot⟩)

theorem Walk.isDir_start (proper : tree.Proper) (walk : Walk tree links node (name :: list) finish) :
    tree.isDir node := by
  cases walk with
  | stay nothing dir walk => exact dir
  | up dir entered walk => exact dir
  | down plain found file walk => exact proper.holder found
  | link plain found linked present relative walk => exact proper.holder found

/-- After `.`, `..` or a separator comes a directory. -/
theorem Walk.isDir_finish (proper : tree.Proper) (last : name ∈ [[], dot, dotDot])
    (walk : Walk tree links node [name] finish) : tree.isDir finish := by
  have special : ¬ Plain name := fun plain => by
    simp only [List.mem_cons, List.not_mem_nil, or_false] at last
    rcases last with empty | here | up
    · exact plain.nonempty empty
    · exact plain.notDot here
    · exact plain.notDotDot up
  cases walk with
  | stay nothing dir walk => exact walk.eq_of_nil ▸ dir
  | up dir entered walk => exact walk.eq_of_nil ▸ proper.holder entered
  | down plain found file walk => exact absurd plain special
  | link plain found linked present relative walk => exact absurd plain special

/-- Where the names lead, whatever links are replaced on the way. -/
def Leads (tree : LinkTree ν) (start : ν) (names : List Path) (finish : ν) : Prop :=
  ∃ links, Walk tree links start names finish

/-! ## Walks and lexical normal forms

A normal form drops a name together with the `..` after it. That is right where
`..` leads back to the directory that the name was looked up in. -/

/-- A link that leads to a directory leads to one beside it. -/
def LinkBeside (tree : LinkTree ν) (start : ν) (before : List Path) (last : Path) : Prop :=
  ∀ node below finish above entry, Leads tree start before.reverse node →
    tree.child node last = some below → tree.target below ≠ none →
    Leads tree node [last] finish → tree.child above entry = some finish → above = node

/-- No name is dropped that is a link to a place elsewhere. -/
def Faithful (tree : LinkTree ν) (start : ν) : List Path → List Path → Prop
  | _, [] => True
  | kept, name :: rest =>
      (name = dotDot → ∀ last before, kept = last :: before → last ≠ dotDot →
        LinkBeside tree start before last) ∧
      Faithful tree start (push false kept name) rest

/-- The names kept by a normalisation. -/
def Kept (kept : List Path) : Prop := ∀ name ∈ kept, name ≠ [] ∧ name ≠ dot

theorem kept_push (keeps : Kept kept) (name : Path) : Kept (push false kept name) := by
  intro other member
  have clean := @mem_foldl_push false [name] kept other member fun earlier listed =>
    ⟨(keeps earlier listed).1, (keeps earlier listed).2, by simp⟩
  exact ⟨clean.1, clean.2.1⟩

/-- `..` after a name that is kept. -/
theorem Walk.back (proper : tree.Proper) {last : Path} {before : List Path}
    (keeps : Kept (last :: before)) (plain : last ≠ dotDot)
    (beside : LinkBeside tree start before last)
    (front : Walk tree links start (last :: before).reverse node)
    (walk : Walk tree more node [dotDot] finish) :
    ∃ fewer, fewer ≤ links ∧ Walk tree fewer start before.reverse finish := by
  rw [List.reverse_cons] at front
  obtain ⟨fewer, others, middle, sum, front, there⟩ := front.split
  cases walk with
  | stay nothing dir walk => exact absurd nothing (by decide)
  | @up _ _ above _ entry _ dir entered walk =>
      obtain rfl := walk.eq_of_nil
      have same : above = middle := by
        cases there with
        | stay nothing dir walk =>
            exact absurd nothing (not_or.mpr (keeps last (List.mem_cons_self ..)))
        | up dir entered walk => exact absurd rfl plain
        | down named found file walk =>
            obtain rfl := walk.eq_of_nil
            exact proper.oneParent dir entered found
        | link named found linked present relative walk =>
            exact beside middle _ node above entry ⟨_, front⟩ found (by simp [linked])
              ⟨_, .link named found linked present relative walk⟩ entered
      exact ⟨fewer, by omega, same ▸ front⟩
  | down plain found file walk => exact absurd rfl plain.notDotDot
  | link plain found linked present relative walk => exact absurd rfl plain.notDotDot

theorem Walk.push (proper : tree.Proper) (keeps : Kept kept)
    (beside : name = dotDot → ∀ last before, kept = last :: before → last ≠ dotDot →
      LinkBeside tree start before last)
    (front : Walk tree links start kept.reverse node) (walk : Walk tree more node [name] finish) :
    ∃ fewer, fewer ≤ links + more ∧
      Walk tree fewer start (push false kept name).reverse finish := by
  by_cases nothing : name = [] ∨ name = dot
  · have same : LexicalPath.push false kept name = kept := by simp [LexicalPath.push, nothing]
    exact ⟨links, by omega, same.symm ▸ (walk.of_nothing nothing).eq_of_nil ▸ front⟩
  · rw [not_or] at nothing
    by_cases up : name = dotDot
    · subst up
      cases kept with
      | nil => exact ⟨more, by omega, front.eq_of_nil ▸ walk⟩
      | cons last before =>
          by_cases same : last = dotDot
          · subst same
            rw [push_dotDot_dotDot, List.reverse_cons]
            exact ⟨_, Nat.le_refl _, front.append walk⟩
          · rw [push_dotDot same]
            obtain ⟨fewer, bound, walk⟩ :=
              front.back proper keeps same (beside rfl last before rfl same) walk
            exact ⟨fewer, by omega, walk⟩
    · rw [push_name nothing.1 nothing.2 up, List.reverse_cons]
      exact ⟨_, Nat.le_refl _, front.append walk⟩

theorem Walk.foldl_push (proper : tree.Proper) (keeps : Kept kept)
    (faithful : Faithful tree start kept list) (front : Walk tree links start kept.reverse node)
    (walk : Walk tree more node list finish) :
    ∃ fewer, fewer ≤ links + more ∧
      Walk tree fewer start (list.foldl (LexicalPath.push false) kept).reverse finish := by
  induction list generalizing kept node links more with
  | nil => exact ⟨links, by omega, walk.eq_of_nil ▸ front⟩
  | cons name rest ih =>
      obtain ⟨before, after, middle, sum, first, later⟩ := @Walk.split _ _ _ _ [name] rest _ walk
      obtain ⟨fewer, bound, front⟩ := front.push proper keeps faithful.1 first
      obtain ⟨fewest, smaller, walk⟩ := ih (kept_push keeps name) faithful.2 front later
      exact ⟨fewest, by omega, walk⟩

/-- A faithful normalisation leads where the names as they stand do. -/
theorem Walk.collapse (proper : tree.Proper) (faithful : Faithful tree start [] list)
    (walk : Walk tree links start list finish) :
    ∃ fewer, fewer ≤ links ∧ Walk tree fewer start (collapse false list) finish := by
  obtain ⟨fewer, bound, walk⟩ :=
    Walk.foldl_push proper (show Kept [] by simp [Kept]) faithful (.here start) walk
  exact ⟨fewer, by omega, walk⟩

/-- Where a separator is left at the end of a normal form, the path asked for a
directory. -/
theorem Walk.isDir_of_separator (proper : tree.Proper) (spells : Spells list path)
    (present : path ≠ []) (relative : isAbsolute path = false)
    (ended : lastSegment (lexicallyNormal path) = [])
    (walk : Walk tree links start list finish) : tree.isDir finish := by
  have normal : (outline (lexicallyNormal path)).slash = true := by simp [outline, ended]
  rw [outline_slash_lexicallyNormal present] at normal
  obtain ⟨front, rfl⟩ := spells.concat present relative
  obtain ⟨_, _, middle, _, _, walk⟩ := walk.split
  exact walk.isDir_finish proper (by simpa [outline] using normal)

/-- The normal form of a relative path leads where the path does, through no
more links. -/
theorem Walk.lexicallyNormal (proper : tree.Proper) (spells : Spells list path)
    (present : path ≠ []) (relative : isAbsolute path = false)
    (faithful : Faithful tree start [] list) (walk : Walk tree links start list finish) :
    ∃ fewer, fewer ≤ links ∧
      Walk tree fewer start (components (lexicallyNormal path)) finish := by
  obtain ⟨fewer, bound, collapsed⟩ := walk.collapse proper faithful
  have outlined : (outline path).names = LexicalPath.collapse false list := by
    simp only [outline, relative, spells.names, collapse_filter]
  have normalRelative : isAbsolute (LexicalPath.lexicallyNormal path) = false := by
    rw [isAbsolute_lexicallyNormal, relative]
  by_cases absent : (outline path).names = []
  · rw [lexicallyNormal_of_names_nil present absent, relative]
    rw [← outlined, absent] at collapsed
    obtain rfl := collapsed.eq_of_nil
    have dir : tree.isDir start := by
      obtain ⟨front, rfl⟩ := spells.concat present relative
      cases front with
      | nil => exact walk.isDir_start proper
      | cons name rest => exact walk.isDir_start proper
    exact ⟨0, Nat.zero_le _, .stay (.inr rfl) dir (.here start)⟩
  · refine ⟨fewer, bound, ?_⟩
    rw [components_of_relative normalRelative, names_lexicallyNormal absent, outlined]
    refine @Walk.append _ _ _ _ _ _ _ fewer 0 collapsed ?_
    split
    · rename_i ended
      exact .stay (.inl rfl) (walk.isDir_of_separator proper spells present relative ended.2) (.here finish)
    · exact .here finish

end LinkTree

end Tebako.Data
