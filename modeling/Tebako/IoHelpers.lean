import Tebako.Common

namespace Tebako

open Data Data.LexicalPath

/-! The current directory within a memfs, and the paths that belong to it. -/

namespace CString

def normal (path : CString) : CString where
  chars := lexicallyNormal path.chars
  noNul member := by
    rcases mem_lexicallyNormal member with original | separator | dot
    · exact path.noNul original
    · exact absurd separator (by decide)
    · exact absurd dot (by decide)

def join (left right : CString) : CString where
  chars := append left.chars right.chars
  noNul member := by
    unfold append at member
    split at member
    · exact right.noNul member
    · split at member
      · rcases List.mem_append.mp member with inLeft | inRight
        · exact left.noNul inLeft
        · exact right.noNul inRight
      · rcases List.mem_append.mp member with inLeft | inRight
        · exact left.noNul inLeft
        · rcases List.mem_cons.mp inRight with separator | inRight
          · exact absurd separator (by decide)
          · exact right.noNul inRight

def withSeparator (path : CString) : CString where
  chars := path.chars ++ ['/']
  noNul member := by
    rcases List.mem_append.mp member with original | separator
    · exact path.noNul original
    · exact absurd separator (by decide)

def drop (path : CString) (count : Nat) : CString where
  chars := path.chars.drop count
  noNul member := path.noNul (List.mem_of_mem_drop member)

def empty : CString := cStr []

def components (path : CString) : List CString :=
  (LexicalPath.components path.chars).map cStr

@[simp] theorem normal_chars (path : CString) : path.normal.chars = lexicallyNormal path.chars := rfl

@[simp] theorem join_chars (left right : CString) :
    (left.join right).chars = append left.chars right.chars := rfl

@[simp] theorem withSeparator_chars (path : CString) :
    path.withSeparator.chars = path.chars ++ ['/'] := rfl

@[simp] theorem empty_chars : empty.chars = [] := rfl

theorem components_chars (path : CString) :
    path.components.map (·.chars) = LexicalPath.components path.chars := by
  rw [components, List.map_map]
  have whole : ∀ name ∈ LexicalPath.components path.chars, (cStr name).chars = name :=
    fun name member => cStr_chars_of_noNul fun nul => path.noNul (mem_components member nul)
  exact (List.map_congr_left whole).trans (List.map_id _)

theorem components_head {path name : CString} {rest : List CString}
    (relative : isAbsolute path.chars = false) (split : path.components = name :: rest) :
    name.chars ≠ [] := by
  have listed := path.components_chars
  rw [split, components_of_relative relative, List.map_cons] at listed
  cases named : names path.chars with
  | nil => simp [named] at listed
  | cons first later =>
      rw [named, List.cons_append, List.cons.injEq] at listed
      rw [listed.1]
      exact (@mem_names path.chars first (by simp [named])).1

theorem components_ne_nil {path : CString} (present : path.chars ≠ [])
    (relative : isAbsolute path.chars = false) : path.components ≠ [] := by
  simp [components, components_of_relative relative, names_ne_nil_of_relative present relative]

theorem foldl_join_ne_nil {rest : List CString} {base : CString}
    (present : base.chars ≠ [] ∨ ∃ name ∈ rest, name.chars ≠ []) :
    (rest.foldl join base).chars ≠ [] := by
  induction rest generalizing base with
  | nil => simpa using present
  | cons name rest ih =>
      apply ih
      rcases present with here | ⟨other, listed, named⟩
      · exact .inl (append_ne_nil (.inl here))
      · rcases List.mem_cons.mp listed with rfl | later
        · exact .inl (append_ne_nil (.inr named))
        · exact .inr ⟨other, later, named⟩

theorem names_foldl_join {rest : List CString} {base : CString}
    (clean : ∀ name ∈ rest, '/' ∉ name.chars) :
    names (rest.foldl join base).chars =
      names base.chars ++ (rest.map (·.chars)).filter (· ≠ []) := by
  induction rest generalizing base with
  | nil => simp
  | cons name rest ih =>
      have whole : segments name.chars = [name.chars] := List.splitOn_eq_singleton (clean name (by simp))
      have relative := isAbsolute_of_clean (clean name (by simp))
      rw [List.foldl_cons, ih fun other member => clean other (by simp [member]), join_chars,
        names_append relative, names, names, whole, List.append_assoc, ← List.filter_append]
      rfl

theorem lastSegment_foldl_join {rest : List CString} {base : CString}
    (clean : ∀ name ∈ rest, '/' ∉ name.chars) :
    lastSegment (rest.foldl join base).chars =
      (rest.map (·.chars)).getLastD (lastSegment base.chars) := by
  induction rest generalizing base with
  | nil => rfl
  | cons name rest ih =>
      have whole : segments name.chars = [name.chars] := List.splitOn_eq_singleton (clean name (by simp))
      have relative := isAbsolute_of_clean (clean name (by simp))
      rw [List.foldl_cons, ih fun other member => clean other (by simp [member]), join_chars,
        lastSegment_append relative, lastSegment, whole, List.map_cons, List.getLastD_cons,
        List.getLastD_cons]
      rfl

theorem spells_foldl_join {list : List Path} {rest : List CString} {base : CString}
    (spells : Spells list base.chars) (clean : ∀ name ∈ rest, '/' ∉ name.chars) :
    Spells (list ++ rest.map (·.chars)) (rest.foldl join base).chars where
  names := by rw [names_foldl_join clean, spells.names, List.filter_append]
  last := by
    rw [lastSegment_foldl_join clean, spells.last]
    simp only [List.getLastD_eq_getLast?, List.getLast?_append]
    cases (rest.map (·.chars)).getLast? <;> simp

theorem isAbsolute_foldl_join {rest : List CString} {base : CString}
    (clean : ∀ name ∈ rest, '/' ∉ name.chars) :
    isAbsolute (rest.foldl join base).chars = isAbsolute base.chars := by
  induction rest generalizing base with
  | nil => rfl
  | cons name rest ih =>
      have relative := isAbsolute_of_clean (clean name (by simp))
      rw [List.foldl_cons, ih fun other member => clean other (by simp [member]), join_chars,
        isAbsolute_append relative]

end CString

/-- `tebako_cwd`: there is an object from the mounting of a root memfs to its
release, with the path it holds. -/
abbrev Cwd := Option CString

namespace Cwd

def init : Cwd := some .empty

def drop : Cwd := none

/-- `is_tebako_cwd` -/
def isIn : Cwd → Bool
  | none => false
  | some p => p.chars ≠ []

def get : Cwd → CString
  | none => .empty
  | some p => tebakoPathAssign p.chars

def set (cwd : Cwd) (path : Option CString) : Cwd :=
  cwd.map fun _ => match path with
    | none => .empty
    | some path => path.withSeparator.normal

end Cwd

def expandPath (p path : CString) : CString := tebakoPathAssign (p.join path).normal.chars

/-- A path within a memfs, as it is looked up there; `none` for all others. -/
def toTebakoPath (cwd : Cwd) (path : CString) : Option CString :=
  let p := path.normal
  if cwd.isIn ∧ isAbsolute p.chars = false then cwd.map fun cwd => expandPath cwd p
  else if isTebakoPath path then some (tebakoPathAssign p.chars)
  else none

theorem isAbsolute_of_isTebakoPath {path : CString} (known : isTebakoPath path = true) :
    isAbsolute path.chars = true := by
  obtain ⟨rest, same⟩ := isTebakoPath_iff.mp known
  rw [same]
  rfl

theorem isTebakoPath_of_relative {path : CString} (relative : isAbsolute path.chars = false) :
    isTebakoPath path = false := by
  by_contra known
  rw [isAbsolute_of_isTebakoPath (eq_true_of_ne_false known)] at relative
  cases relative

theorem toTebakoPath_of_absolute {path : CString} (absolute : isAbsolute path.chars = true) (cwd : Cwd) :
    toTebakoPath cwd path =
      if isTebakoPath path then some (tebakoPathAssign path.normal.chars) else none := by
  simp [toTebakoPath, absolute]

theorem toTebakoPath_of_isTebakoPath {path : CString} (known : isTebakoPath path = true)
    (cwd : Cwd) : toTebakoPath cwd path = some (tebakoPathAssign path.normal.chars) := by
  rw [toTebakoPath_of_absolute (isAbsolute_of_isTebakoPath known), if_pos known]

/-- The part of a path that `find_inode_root` looks up in the root image. -/
def adjustedPath (path : CString) : Option CString :=
  if path.chars.length < tebakoMountPointLength then none
  else if path.chars.getD tebakoMountPointLength (Char.ofNat 0) = Char.ofNat 0 then
    some (path.drop tebakoMountPointLength)
  else some (path.drop (tebakoMountPointLength + 1))

end Tebako
