import Mathlib.Data.List.DropRight
import Mathlib.Data.List.Induction

namespace Tebako.Data.LexicalPath

/-! Pathnames as text, with the lexical operations of a standard path class on
a POSIX system: splitting into components, joining with one separator, and the
normal form that removes `.`, `..` and repeated separators without looking at
any file system. -/

abbrev Path := List Char

def dot : Path := ['.']

def dotDot : Path := ['.', '.']

def segments (path : Path) : List Path := path.splitOn '/'

def names (path : Path) : List Path := (segments path).filter (· ≠ [])

/-- The text after the last separator, empty when a separator ends the path. -/
def lastSegment (path : Path) : Path := (segments path).getLastD []

def isAbsolute (path : Path) : Bool := path.head? = some '/'

/-- What iterating over a path yields: its root directory, its filenames, and
an empty filename for a separator at the end. -/
def components (path : Path) : List Path :=
  (if isAbsolute path then [['/']] else []) ++ names path ++
    (if names path ≠ [] ∧ lastSegment path = [] then [[]] else [])

/-- `left / right`: an absolute right operand replaces the left one. -/
def append (left right : Path) : Path :=
  if isAbsolute right then right
  else if lastSegment left = [] then left ++ right
  else left ++ '/' :: right

/-- One filename of a normalisation; the names kept so far are in reverse. -/
def push (rooted : Bool) (kept : List Path) (name : Path) : List Path :=
  if name = [] ∨ name = dot then kept
  else if name = dotDot then
    match kept with
    | [] => if rooted then [] else [dotDot]
    | last :: before => if last = dotDot then dotDot :: kept else before
  else name :: kept

def collapse (rooted : Bool) (list : List Path) : List Path :=
  (list.foldl (push rooted) []).reverse

structure Outline where
  rooted : Bool
  names : List Path
  slash : Bool
deriving DecidableEq

def Outline.segments (outline : Outline) : List Path :=
  (if outline.rooted then [[]] else []) ++ outline.names ++
    (if outline.slash ∧ outline.names.getLast? ≠ some dotDot then [[]] else [])

def Outline.text (outline : Outline) : Path :=
  if outline.names = [] then (if outline.rooted then ['/'] else dot)
  else ['/'].intercalate outline.segments

def outline (path : Path) : Outline where
  rooted := isAbsolute path
  names := collapse (isAbsolute path) (names path)
  slash := lastSegment path ∈ [[], dot, dotDot]

def lexicallyNormal (path : Path) : Path :=
  if path = [] then [] else (outline path).text

example : lexicallyNormal ['a', '/', '.', '/', 'b', '/', '.', '.'] = ['a', '/'] := by decide
example : lexicallyNormal ['/', '.', '.', '/', '/', 'a', '/', '.', '.'] = ['/'] := by decide
example : lexicallyNormal ['.', '.', '/', 'a', '/', '.', '.'] = ['.', '.'] := by decide
example : components ['/', 'a', '/', '/', 'b', '/'] = [['/'], ['a'], ['b'], []] := by decide

variable {path left right : Path} {rooted : Bool} {list first second : List Path}

/-! ## Splitting and joining -/

theorem segments_append_separator (left right : Path) :
    segments (left ++ '/' :: right) = segments left ++ segments right :=
  List.splitOn_append_cons_self left right

theorem separator_not_mem_segment {segment : Path} (member : segment ∈ segments path) :
    '/' ∉ segment := by
  induction path generalizing segment with
  | nil =>
      obtain rfl : segment = [] := by simpa [segments] using member
      simp
  | cons char rest ih =>
      rw [segments, List.splitOn_cons_eq_if_modifyHead] at member
      by_cases separator : char = '/'
      · simp only [separator, beq_self_eq_true, ↓reduceIte, List.mem_cons] at member
        rcases member with rfl | member
        · simp
        · exact ih member
      · simp only [beq_iff_eq, separator, ↓reduceIte] at member
        cases split : rest.splitOn '/' with
        | nil => exact absurd split (List.splitOn_ne_nil _ _)
        | cons head tail =>
            rw [split] at member
            rcases List.mem_cons.mp member with rfl | member
            · have clean := @ih head (by simp [segments, split])
              simp [clean, Ne.symm separator]
            · exact ih (by simp [segments, split, member])

theorem mem_names {name : Path} (member : name ∈ names path) : name ≠ [] ∧ '/' ∉ name := by
  obtain ⟨segment, nonempty⟩ := List.mem_filter.mp member
  exact ⟨by simpa using nonempty, separator_not_mem_segment segment⟩

@[simp] theorem names_nil : names [] = [] := by decide

@[simp] theorem lastSegment_nil : lastSegment [] = [] := by decide

@[simp] theorem isAbsolute_nil : isAbsolute [] = false := by decide

theorem ne_nil_of_absolute (absolute : isAbsolute path = true) : path ≠ [] := by
  intro empty
  simp [empty] at absolute

theorem names_append_separator (left right : Path) :
    names (left ++ '/' :: right) = names left ++ names right := by
  rw [names, segments_append_separator, List.filter_append]
  rfl

theorem lastSegment_append_separator (left right : Path) :
    lastSegment (left ++ '/' :: right) = lastSegment right := by
  have present : segments right ≠ [] := List.splitOn_ne_nil _ _
  rw [lastSegment, segments_append_separator, List.getLastD_eq_getLast?,
    List.getLast?_append, lastSegment, List.getLastD_eq_getLast?,
    List.getLast?_eq_some_getLast present]
  rfl

theorem eq_append_separator_of_lastSegment (empty : lastSegment path = []) :
    path = [] ∨ ∃ front, path = front ++ ['/'] := by
  induction path with
  | nil => exact .inl rfl
  | cons char rest ih =>
      right
      by_cases separator : char = '/'
      · subst separator
        have restEmpty : lastSegment rest = [] :=
          (lastSegment_append_separator [] rest).symm.trans empty
        rcases ih restEmpty with rfl | ⟨front, rfl⟩
        · exact ⟨[], rfl⟩
        · exact ⟨'/' :: front, rfl⟩
      · have split := List.splitOn_cons_eq_if_modifyHead (a := '/') char rest
        simp only [beq_iff_eq, separator, ↓reduceIte] at split
        cases tail : segments rest with
        | nil => exact absurd tail (List.splitOn_ne_nil _ _)
        | cons head later =>
            rw [show rest.splitOn '/' = head :: later from tail] at split
            cases later with
            | nil => simp [lastSegment, segments, split] at empty
            | cons next more =>
                have restEmpty : lastSegment rest = [] := by
                  simpa [lastSegment, segments, split, show rest.splitOn '/' = _ from tail] using empty
                rcases ih restEmpty with rfl | ⟨front, rfl⟩
                · simp [segments] at tail
                · exact ⟨char :: front, rfl⟩

theorem names_append_of_lastSegment (empty : lastSegment left = []) (right : Path) :
    names (left ++ right) = names left ++ names right := by
  rcases eq_append_separator_of_lastSegment empty with rfl | ⟨front, rfl⟩
  · simp
  · simp [names_append_separator]

theorem lastSegment_append_of_lastSegment (empty : lastSegment left = []) (right : Path) :
    lastSegment (left ++ right) = lastSegment right := by
  rcases eq_append_separator_of_lastSegment empty with rfl | ⟨front, rfl⟩
  · simp
  · rw [List.append_assoc, List.singleton_append, lastSegment_append_separator]

section Append

variable (relative : isAbsolute right = false)
include relative

theorem names_append : names (append left right) = names left ++ names right := by
  simp only [append, relative, Bool.false_eq_true, ↓reduceIte]
  split
  · exact names_append_of_lastSegment ‹_› right
  · exact names_append_separator left right

theorem lastSegment_append : lastSegment (append left right) = lastSegment right := by
  simp only [append, relative, Bool.false_eq_true, ↓reduceIte]
  split
  · exact lastSegment_append_of_lastSegment ‹_› right
  · exact lastSegment_append_separator left right

theorem isAbsolute_append : isAbsolute (append left right) = isAbsolute left := by
  simp only [append, relative, Bool.false_eq_true, ↓reduceIte]
  cases left with
  | nil => simpa using relative
  | cons char rest => split <;> simp [isAbsolute]

end Append

/-! ## Normalisation -/

theorem push_name {name : Path} (nonempty : name ≠ []) (notDot : name ≠ dot)
    (notDotDot : name ≠ dotDot) (kept : List Path) : push rooted kept name = name :: kept := by
  simp [push, nonempty, notDot, notDotDot]

theorem push_dotDot {last : Path} (notDotDot : last ≠ dotDot) (before : List Path) :
    push rooted (last :: before) dotDot = before := by
  rw [push, if_neg (by decide), if_pos rfl]
  exact if_neg notDotDot

theorem push_dotDot_dotDot (before : List Path) :
    push rooted (dotDot :: before) dotDot = dotDot :: dotDot :: before := by
  rw [push, if_neg (by decide), if_pos rfl]
  rfl

/-- A filename that normalisation keeps as it stands. -/
structure Plain (name : Path) : Prop where
  nonempty : name ≠ []
  notDot : name ≠ dot
  notDotDot : name ≠ dotDot

instance (name : Path) : Decidable (Plain name) :=
  decidable_of_iff (name ≠ [] ∧ name ≠ dot ∧ name ≠ dotDot)
    ⟨fun plain => ⟨plain.1, plain.2.1, plain.2.2⟩, fun plain => ⟨plain.1, plain.2, plain.3⟩⟩

theorem collapse_append (rooted : Bool) (first second : List Path) :
    collapse rooted (first ++ second) =
      (second.foldl (push rooted) (collapse rooted first).reverse).reverse := by
  simp [collapse]

theorem collapse_concat {name : Path} (plain : Plain name) (front : List Path) :
    collapse rooted (front ++ [name]) = collapse rooted front ++ [name] := by
  rw [collapse_append, List.foldl_cons, List.foldl_nil,
    push_name plain.nonempty plain.notDot plain.notDotDot]
  simp

theorem foldl_push_plain (plain : ∀ name ∈ list, Plain name) (kept : List Path) :
    list.foldl (push rooted) kept = list.reverse ++ kept := by
  induction list generalizing kept with
  | nil => rfl
  | cons name rest ih =>
      obtain ⟨nonempty, notDot, notDotDot⟩ := plain name (by simp)
      rw [List.foldl_cons, push_name nonempty notDot notDotDot,
        ih (fun other member => plain other (by simp [member]))]
      simp

theorem collapse_plain (plain : ∀ name ∈ list, Plain name) : collapse rooted list = list := by
  simp [collapse, foldl_push_plain plain]

/-- What is left of a list of filenames: never empty ones or dots, and `..`
only where the path has no root. -/
theorem mem_foldl_push {kept : List Path} {name : Path}
    (member : name ∈ list.foldl (push rooted) kept)
    (before : ∀ name ∈ kept, name ≠ [] ∧ name ≠ dot ∧ (rooted = true → name ≠ dotDot)) :
    name ≠ [] ∧ name ≠ dot ∧ (rooted = true → name ≠ dotDot) := by
  induction list generalizing kept with
  | nil => exact before name member
  | cons head rest ih =>
      refine ih member fun other pushed => ?_
      unfold push at pushed
      split at pushed
      · exact before other pushed
      · rename_i named
        split at pushed
        · split at pushed
          · cases rooted with
            | true => simp at pushed
            | false =>
                obtain rfl : other = dotDot := by simpa using pushed
                exact ⟨by decide, by decide, by simp⟩
          · rename_i last earlier
            split at pushed
            · rename_i same
              rcases List.mem_cons.mp pushed with rfl | later
              · exact same ▸ before last (by simp)
              · exact before other later
            · exact before other (by simp [pushed])
        · rename_i notDotDot
          rcases List.mem_cons.mp pushed with rfl | later
          · exact ⟨fun h => named (.inl h), fun h => named (.inr h), fun _ => notDotDot⟩
          · exact before other later

theorem mem_collapse {name : Path} (member : name ∈ collapse rooted list) :
    name ≠ [] ∧ name ≠ dot ∧ (rooted = true → name ≠ dotDot) :=
  mem_foldl_push (List.mem_reverse.mp member) (by simp)

theorem plain_of_mem_collapse {name : Path} (member : name ∈ collapse true list) : Plain name :=
  have kept := mem_collapse member
  ⟨kept.1, kept.2.1, kept.2.2 rfl⟩

/-- Collapsing the right part of a path first changes nothing: what `..` has
not consumed there, it consumes in the left part. -/
theorem foldl_push_collapse (list kept : List Path) :
    (collapse false list).foldl (push rooted) kept = list.foldl (push rooted) kept := by
  induction list using List.reverseRecOn with
  | nil => rfl
  | append_singleton front name ih =>
      rw [List.foldl_append, List.foldl_cons, List.foldl_nil, ← ih, collapse, List.foldl_append,
        List.foldl_cons, List.foldl_nil]
      have known : collapse false front = (front.foldl (push false) []).reverse := rfl
      have clean : ∀ other ∈ front.foldl (push false) [], other ≠ [] ∧ other ≠ dot :=
        fun other member => have kept := mem_foldl_push member (by simp); ⟨kept.1, kept.2.1⟩
      rw [known]
      generalize front.foldl (push false) [] = stack at clean
      by_cases ignored : name = [] ∨ name = dot
      · simp [push, ignored]
      · by_cases up : name = dotDot
        · subst up
          cases stack with
          | nil => simp [push, dotDot, dot]
          | cons last before =>
              by_cases same : last = dotDot
              · subst same
                rw [push_dotDot_dotDot, List.reverse_cons, List.foldl_append]
                rfl
              · have plain := clean last (by simp)
                rw [push_dotDot same, List.reverse_cons, List.foldl_append, List.foldl_cons,
                  List.foldl_nil, push_name plain.1 plain.2 same, push_dotDot same]
        · rw [not_or] at ignored
          rw [push_name ignored.1 ignored.2 up, List.reverse_cons, List.foldl_append,
            List.foldl_cons, List.foldl_nil, push_name ignored.1 ignored.2 up]

theorem collapse_append_collapse (rooted : Bool) (first second : List Path) :
    collapse rooted (first ++ collapse false second) = collapse rooted (first ++ second) := by
  rw [collapse_append, collapse_append, foldl_push_collapse]

theorem collapse_collapse (rooted : Bool) (list : List Path) :
    collapse rooted (collapse rooted list) = collapse rooted list := by
  cases rooted with
  | true => exact collapse_plain fun _ => plain_of_mem_collapse
  | false => exact collapse_append_collapse false [] list

theorem push_plain {kept : List Path} (name : Path) (plain : ∀ other ∈ kept, Plain other) :
    (∀ other ∈ push false kept name, Plain other) ∨ (push false kept name).getLast? = some dotDot := by
  unfold push
  split
  · exact .inl plain
  · rename_i named
    rw [not_or] at named
    split
    · cases kept with
      | nil => exact .inr rfl
      | cons last before =>
          have ordinary : last ≠ dotDot := (plain last (by simp)).notDotDot
          simp only [ordinary, ↓reduceIte]
          exact .inl fun other member => plain other (by simp [member])
    · rename_i ordinary
      refine .inl fun other member => ?_
      rcases List.mem_cons.mp member with rfl | member
      · exact ⟨named.1, named.2, ordinary⟩
      · exact plain other member

theorem push_up {kept : List Path} (name : Path) (up : kept.getLast? = some dotDot) :
    (push false kept name).getLast? = some dotDot := by
  cases kept with
  | nil => cases up
  | cons last before =>
      unfold push
      split
      · exact up
      · split
        · simp only
          split
          · rwa [List.getLast?_cons_cons]
          · rename_i ordinary
            cases before with
            | nil => exact absurd (Option.some.inj up) ordinary
            | cons next earlier => rwa [List.getLast?_cons_cons] at up
        · rwa [List.getLast?_cons_cons]

/-- A relative normal form leads up first, or not at all. -/
theorem collapse_upOrPlain (list : List Path) :
    (collapse false list).head? = some dotDot ∨ ∀ name ∈ collapse false list, Plain name := by
  rw [collapse, List.head?_reverse]
  simp only [List.mem_reverse]
  induction list using List.reverseRecOn with
  | nil => exact .inr (by simp)
  | append_singleton front name ih =>
      rw [List.foldl_append, List.foldl_cons, List.foldl_nil]
      rcases ih with up | plain
      · exact .inl (push_up name up)
      · exact (push_plain name plain).symm

theorem collapse_collapse_append (rooted : Bool) (first second : List Path) :
    collapse rooted (collapse rooted first ++ second) = collapse rooted (first ++ second) := by
  rw [collapse_append, collapse_collapse, ← collapse_append]

theorem mem_of_mem_foldl_push {kept : List Path} {name : Path}
    (member : name ∈ list.foldl (push rooted) kept) : name ∈ kept ∨ name ∈ list ∨ name = dotDot := by
  induction list generalizing kept with
  | nil => exact .inl member
  | cons head rest ih =>
      rcases ih member with pushed | later | up
      · unfold push at pushed
        split at pushed
        · exact .inl pushed
        · split at pushed
          · split at pushed
            · cases rooted with
              | true => simp at pushed
              | false => exact .inr (.inr (by simpa using pushed))
            · rename_i last before
              split at pushed
              · rcases List.mem_cons.mp pushed with up | earlier
                · exact .inr (.inr up)
                · exact .inl earlier
              · exact .inl (by simp [pushed])
          · rcases List.mem_cons.mp pushed with same | earlier
            · exact .inr (.inl (by simp [same]))
            · exact .inl earlier
      · exact .inr (.inl (by simp [later]))
      · exact .inr (.inr up)

theorem mem_of_mem_collapse {name : Path} (member : name ∈ collapse rooted list) :
    name ∈ list ∨ name = dotDot := by
  rcases mem_of_mem_foldl_push (List.mem_reverse.mp member) with impossible | kept
  · cases impossible
  · exact kept

/-! ## The text of an outline -/

namespace Outline

/-- The outlines that normalisation produces: filenames without separators,
none of them empty or a dot. -/
structure WellFormed (outline : Outline) : Prop where
  nonempty : ∀ name ∈ outline.names, name ≠ []
  noSeparator : ∀ name ∈ outline.names, '/' ∉ name
  noDot : ∀ name ∈ outline.names, name ≠ dot
  rootedPlain : outline.rooted = true → ∀ name ∈ outline.names, name ≠ dotDot

variable {outline : Outline}

theorem segments_text (wellFormed : outline.WellFormed) (present : outline.names ≠ []) :
    LexicalPath.segments outline.text = outline.segments := by
  rw [text, if_neg present]
  refine List.splitOn_intercalate '/' ?_ ?_
  · intro segment member
    simp only [Outline.segments, List.mem_append] at member
    rcases member with (root | name) | slash
    · split at root <;> simp_all
    · exact wellFormed.noSeparator segment name
    · split at slash <;> simp_all
  · simp [Outline.segments, present]

theorem names_text (wellFormed : outline.WellFormed) (present : outline.names ≠ []) :
    LexicalPath.names outline.text = outline.names := by
  rw [LexicalPath.names, segments_text wellFormed present, Outline.segments]
  have kept : outline.names.filter (· ≠ []) = outline.names := by
    simpa [List.filter_eq_self] using wellFormed.nonempty
  rw [List.filter_append, List.filter_append, kept]
  have root : (if outline.rooted then [[]] else ([] : List Path)).filter (· ≠ []) = [] := by
    split <;> rfl
  have slash : (if outline.slash ∧ outline.names.getLast? ≠ some dotDot then [[]]
      else ([] : List Path)).filter (· ≠ []) = [] := by
    split <;> rfl
  rw [root, slash, List.nil_append, List.append_nil]

theorem isAbsolute_text (wellFormed : outline.WellFormed) :
    isAbsolute outline.text = outline.rooted := by
  cases names : outline.names with
  | nil => cases rooted : outline.rooted <;> simp [text, names, rooted, isAbsolute, dot]
  | cons first rest =>
      have present : outline.names ≠ [] := by simp [names]
      rw [text, if_neg present, Outline.segments, names]
      cases rooted : outline.rooted with
      | true => simp [isAbsolute, List.intercalate_cons_cons]
      | false =>
          have nonempty := wellFormed.nonempty first (by simp [names])
          have clean := wellFormed.noSeparator first (by simp [names])
          obtain ⟨char, more, rfl⟩ := List.exists_cons_of_ne_nil nonempty
          have other : char ≠ '/' := fun same => clean (by simp [same])
          simp [isAbsolute, List.intercalate_cons_cons_left, other]

end Outline

/-! ## Normal forms -/

theorem outline_wellFormed (path : Path) : (outline path).WellFormed where
  nonempty name member := (mem_collapse member).1
  noSeparator name member := by
    rcases mem_of_mem_collapse member with named | rfl
    · exact (mem_names named).2
    · decide
  noDot name member := (mem_collapse member).2.1
  rootedPlain rooted name member := (mem_collapse member).2.2 rooted

@[simp] theorem isAbsolute_lexicallyNormal (path : Path) :
    isAbsolute (lexicallyNormal path) = isAbsolute path := by
  cases path with
  | nil => rfl
  | cons char rest => exact Outline.isAbsolute_text (outline_wellFormed _)

theorem mem_of_mem_segment {char : Char} {segment : Path} (named : segment ∈ segments path)
    (member : char ∈ segment) : char ∈ path := by
  induction path generalizing segment with
  | nil =>
      obtain rfl : segment = [] := by simpa [segments] using named
      cases member
  | cons first rest ih =>
      rw [segments, List.splitOn_cons_eq_if_modifyHead] at named
      by_cases separator : first = '/'
      · simp only [separator, beq_self_eq_true, ↓reduceIte, List.mem_cons] at named
        rcases named with rfl | named
        · cases member
        · exact List.mem_cons_of_mem _ (ih named member)
      · simp only [beq_iff_eq, separator, ↓reduceIte] at named
        cases split : rest.splitOn '/' with
        | nil => exact absurd split (List.splitOn_ne_nil _ _)
        | cons head tail =>
            rw [split] at named
            rcases List.mem_cons.mp named with rfl | named
            · rcases List.mem_cons.mp member with rfl | member
              · exact List.mem_cons_self
              · exact List.mem_cons_of_mem _ (@ih head (by simp [segments, split]) member)
            · exact List.mem_cons_of_mem _ (ih (by simp [segments, split, named]) member)

theorem mem_intercalate {char : Char} (member : char ∈ ['/'].intercalate list) :
    char = '/' ∨ ∃ segment ∈ list, char ∈ segment := by
  induction list with
  | nil => simp at member
  | cons segment rest ih =>
      cases rest with
      | nil => exact .inr ⟨segment, by simp, by simpa using member⟩
      | cons next more =>
          rw [List.intercalate_cons_cons, List.mem_append, List.mem_append] at member
          rcases member with (here | separator) | later
          · exact .inr ⟨segment, by simp, here⟩
          · exact .inl (by simpa using separator)
          · rcases ih later with same | ⟨other, listed, inside⟩
            · exact .inl same
            · exact .inr ⟨other, List.mem_cons_of_mem _ listed, inside⟩

theorem mem_lexicallyNormal {char : Char} (member : char ∈ lexicallyNormal path) :
    char ∈ path ∨ char = '/' ∨ char = '.' := by
  have fromDots : ∀ {name : Path}, name = dotDot → char ∈ name → char = '.' := by
    intro name same inside
    subst same
    simpa [dotDot] using inside
  unfold lexicallyNormal at member
  split at member
  · cases member
  · unfold Outline.text at member
    split at member
    · split at member
      · exact .inr (.inl (by simpa using member))
      · exact .inr (.inr (by simpa [dot] using member))
    · rcases mem_intercalate member with separator | ⟨segment, listed, inside⟩
      · exact .inr (.inl separator)
      · simp only [Outline.segments, List.mem_append] at listed
        rcases listed with (root | named) | slash
        · split at root
          · obtain rfl : segment = [] := by simpa using root
            cases inside
          · cases root
        · rcases mem_of_mem_collapse named with original | up
          · exact .inl (mem_of_mem_segment (List.mem_filter.mp original).1 inside)
          · exact .inr (.inr (fromDots up inside))
        · split at slash
          · obtain rfl : segment = [] := by simpa using slash
            cases inside
          · cases slash

theorem names_eq_append_lastSegment (nonempty : lastSegment path ≠ []) :
    ∃ front, names path = front ++ [lastSegment path] := by
  have present : segments path ≠ [] := List.splitOn_ne_nil _ _
  have last : lastSegment path = (segments path).getLast present := by
    rw [lastSegment, List.getLastD_eq_getLast?, List.getLast?_eq_some_getLast present]
    rfl
  refine ⟨(segments path).dropLast.filter (· ≠ []), ?_⟩
  calc names path
      = ((segments path).dropLast ++ [(segments path).getLast present]).filter (· ≠ []) := by
        rw [List.dropLast_concat_getLast present, names]
    _ = (segments path).dropLast.filter (· ≠ []) ++ [lastSegment path] := by
        rw [List.filter_append, ← last]
        simp [nonempty]

/-- A filename at the end of a path is still at the end of its normal form. -/
theorem collapse_getLast? (plain : Plain (lastSegment path)) :
    (collapse rooted (names path)).getLast? = some (lastSegment path) := by
  obtain ⟨front, split⟩ := names_eq_append_lastSegment plain.nonempty
  rw [split, collapse_concat plain, List.getLast?_concat]

theorem plain_lastSegment (ended : (outline path).slash = false) : Plain (lastSegment path) := by
  have outside : lastSegment path ∉ [[], dot, dotDot] := by simpa [outline] using ended
  simp only [List.mem_cons, List.not_mem_nil, or_false, not_or] at outside
  exact ⟨outside.1, outside.2.1, outside.2.2⟩

theorem outline_slash_lexicallyNormal (present : path ≠ []) :
    (outline (lexicallyNormal path)).slash = (outline path).slash := by
  have wellFormed := outline_wellFormed path
  have normal : lexicallyNormal path = (outline path).text := if_neg present
  by_cases absent : (outline path).names = []
  · have slash : (outline path).slash = true := by
      by_contra ended
      have last := @collapse_getLast? path (isAbsolute path)
        (plain_lastSegment (eq_false_of_ne_true ended))
      rw [show collapse (isAbsolute path) (names path) = [] from absent] at last
      cases last
    rw [slash, normal, Outline.text, if_pos absent]
    cases (outline path).rooted <;> rfl
  · have split := Outline.segments_text wellFormed absent
    have last : lastSegment (lexicallyNormal path) = (outline path).segments.getLastD [] := by
      rw [normal, lastSegment, split]
    cases slash : (outline path).slash with
    | true =>
        have ended : (outline path).segments.getLastD [] ∈ [[], dot, dotDot] := by
          by_cases up : (outline path).names.getLast? = some dotDot
          · simp [Outline.segments, slash, up]
          · simp [Outline.segments, slash, up]
        rw [outline, last]
        exact decide_eq_true ended
    | false =>
        have plain := plain_lastSegment slash
        have final := @collapse_getLast? path (isAbsolute path) plain
        have same : (outline path).segments.getLastD [] = lastSegment path := by
          have named : (outline path).names.getLast? = some (lastSegment path) := final
          simp [Outline.segments, slash, List.getLastD_eq_getLast?, List.getLast?_append, named]
        have outside : lastSegment path ∉ [[], dot, dotDot] := by simpa [outline] using slash
        rw [outline, last, same]
        exact decide_eq_false outside

theorem names_lexicallyNormal (present : (outline path).names ≠ []) :
    names (lexicallyNormal path) = (outline path).names := by
  have nonempty : path ≠ [] := by
    intro empty
    subst empty
    exact present (by decide)
  rw [lexicallyNormal, if_neg nonempty]
  exact Outline.names_text (outline_wellFormed path) present

theorem lexicallyNormal_of_names_nil (present : path ≠ []) (absent : (outline path).names = []) :
    lexicallyNormal path = if isAbsolute path then ['/'] else dot := by
  rw [lexicallyNormal, if_neg present, Outline.text, if_pos absent]
  rfl

theorem lexicallyNormal_eq_of_outline (leftPresent : left ≠ []) (rightPresent : right ≠ [])
    (same : outline left = outline right) : lexicallyNormal left = lexicallyNormal right := by
  rw [lexicallyNormal, lexicallyNormal, if_neg leftPresent, if_neg rightPresent, same]

theorem lexicallyNormal_ne_nil (present : path ≠ []) : lexicallyNormal path ≠ [] := by
  intro empty
  by_cases absent : (outline path).names = []
  · rw [lexicallyNormal_of_names_nil present absent] at empty
    split at empty <;> cases empty
  · have named := names_lexicallyNormal absent
    rw [empty] at named
    exact absent named.symm

theorem outline_lexicallyNormal (present : path ≠ []) :
    outline (lexicallyNormal path) = outline path := by
  have slash := outline_slash_lexicallyNormal present
  have collapsed : collapse (isAbsolute path) (names (lexicallyNormal path)) =
      collapse (isAbsolute path) (names path) := by
    by_cases absent : (outline path).names = []
    · have gone : collapse (isAbsolute path) (names path) = [] := absent
      rw [lexicallyNormal_of_names_nil present absent, gone]
      cases isAbsolute path <;> rfl
    · rw [names_lexicallyNormal absent]
      exact collapse_collapse (isAbsolute path) (names path)
  rw [outline, outline, isAbsolute_lexicallyNormal, collapsed, Outline.mk.injEq]
  exact ⟨rfl, rfl, slash⟩

@[simp] theorem lexicallyNormal_lexicallyNormal (path : Path) :
    lexicallyNormal (lexicallyNormal path) = lexicallyNormal path := by
  by_cases present : path = []
  · rw [present]
    rfl
  · exact lexicallyNormal_eq_of_outline (lexicallyNormal_ne_nil present) present
      (outline_lexicallyNormal present)

theorem append_ne_nil_of_absolute (absolute : isAbsolute left = true)
    (relative : isAbsolute right = false) : append left right ≠ [] := by
  intro joined
  have rooted := @isAbsolute_append left _ relative
  rw [joined, absolute] at rooted
  cases rooted

/-- Normalising a relative right operand first changes nothing. -/
theorem lexicallyNormal_append_lexicallyNormal (absolute : isAbsolute left = true)
    (relative : isAbsolute right = false) :
    lexicallyNormal (append left (lexicallyNormal right)) = lexicallyNormal (append left right) := by
  by_cases empty : right = []
  · rw [empty]
    rfl
  · have normalRelative : isAbsolute (lexicallyNormal right) = false := by
      rw [isAbsolute_lexicallyNormal, relative]
    apply lexicallyNormal_eq_of_outline (append_ne_nil_of_absolute absolute normalRelative)
      (append_ne_nil_of_absolute absolute relative)
    have slash := outline_slash_lexicallyNormal empty
    have collapsed : collapse true (names left ++ names (lexicallyNormal right)) =
        collapse true (names left ++ names right) := by
      by_cases absent : (outline right).names = []
      · have gone : collapse false (names right) = [] := by
          have kept : collapse (isAbsolute right) (names right) = [] := absent
          rwa [relative] at kept
        rw [lexicallyNormal_of_names_nil empty absent, relative, ← collapse_append_collapse,
          ← collapse_append_collapse true (names left) (names right), gone]
        rfl
      · have kept : (outline right).names = collapse false (names right) := by
          simp only [outline, relative]
        rw [names_lexicallyNormal absent, kept, collapse_append_collapse]
    simp only [outline, Outline.mk.injEq, names_append normalRelative, names_append relative,
      isAbsolute_append normalRelative, isAbsolute_append relative, absolute, collapsed,
      lastSegment_append normalRelative, lastSegment_append relative, true_and]
    exact slash

/-! ## Paths below a directory -/

/-- `path` is `root`, or `root` and more components after it. -/
def Below (root path : Path) : Prop := path = root ∨ root ++ ['/'] <+: path

instance (root path : Path) : Decidable (Below root path) := inferInstanceAs (Decidable (_ ∨ _))

theorem below_append (root rest : Path) : Below root (root ++ '/' :: rest) :=
  .inr ⟨rest, by simp⟩

theorem names_single {name : Path} (nonempty : name ≠ []) (clean : '/' ∉ name) :
    names name = [name] := by
  have whole : segments name = [name] := List.splitOn_eq_singleton clean
  rw [names, whole]
  simp [nonempty]

theorem below_intercalate (name : Path) (rest : List Path) :
    Below ('/' :: name) (['/'].intercalate ([] :: name :: rest)) := by
  cases rest with
  | nil =>
      left
      simp [List.intercalate_cons_cons]
  | cons next more =>
      have joined := below_append ('/' :: name) (['/'].intercalate (next :: more))
      simpa [List.intercalate_cons_cons] using joined

/-- A rooted normal form lies below the directory that its first filename
names. -/
theorem below_iff_head {name : Path} (nonempty : name ≠ []) (clean : '/' ∉ name)
    (absolute : isAbsolute path = true) :
    Below ('/' :: name) (lexicallyNormal path) ↔ (outline path).names.head? = some name := by
  have present := ne_nil_of_absolute absolute
  constructor
  · intro below
    have named : (names (lexicallyNormal path)).head? = some name := by
      rcases below with same | ⟨rest, same⟩
      · rw [same, ← List.nil_append ('/' :: name), names_append_separator,
          names_single nonempty clean]
        rfl
      · rw [← same, List.append_assoc, List.singleton_append, names_append_separator,
          ← List.nil_append ('/' :: name), names_append_separator, names_single nonempty clean]
        rfl
    by_cases absent : (outline path).names = []
    · rw [lexicallyNormal_of_names_nil present absent, if_pos absolute] at named
      cases named
    · rwa [names_lexicallyNormal absent] at named
  · intro first
    obtain ⟨rest, split⟩ := List.head?_eq_some_iff.mp first
    have rooted : (outline path).rooted = true := absolute
    have named : (outline path).names ≠ [] := by simp [split]
    rw [lexicallyNormal, if_neg present, Outline.text, if_neg named, Outline.segments, rooted,
      split]
    exact below_intercalate name (rest ++ _)

/-! ## The last filename -/

theorem names_lexicallyNormal_concat {name : Path} {front : List Path} (plain : Plain name)
    (ends : names path = front ++ [name]) :
    names (lexicallyNormal path) = collapse (isAbsolute path) front ++ [name] := by
  have outlined : (outline path).names = collapse (isAbsolute path) front ++ [name] := by
    rw [outline, ends, collapse_concat plain]
  rw [names_lexicallyNormal (by simp [outlined]), outlined]

theorem names_lexicallyNormal_of_absolute (absolute : isAbsolute path = true) :
    names (lexicallyNormal path) = collapse true (names path) := by
  have present := ne_nil_of_absolute absolute
  have outlined : (outline path).names = collapse true (names path) := by rw [outline, absolute]
  by_cases absent : (outline path).names = []
  · rw [lexicallyNormal_of_names_nil present absent, if_pos absolute, ← outlined, absent]
    rfl
  · rw [names_lexicallyNormal absent, outlined]

/-- Normalising an absolute left operand first changes nothing either. -/
theorem lexicallyNormal_append_left (absolute : isAbsolute left = true)
    (relative : isAbsolute right = false) :
    lexicallyNormal (append (lexicallyNormal left) right) = lexicallyNormal (append left right) := by
  have normalAbsolute : isAbsolute (lexicallyNormal left) = true := by
    rw [isAbsolute_lexicallyNormal, absolute]
  apply lexicallyNormal_eq_of_outline (append_ne_nil_of_absolute normalAbsolute relative)
    (append_ne_nil_of_absolute absolute relative)
  have collapsed : collapse true (collapse true (names left) ++ names right) =
      collapse true (names left ++ names right) := by
    rw [collapse_append, collapse_collapse, ← collapse_append]
  simp only [outline, names_append relative, isAbsolute_append relative, normalAbsolute, absolute,
    names_lexicallyNormal_of_absolute absolute, collapsed, lastSegment_append relative]

theorem lexicallyNormal_append_append {middle : Path} (absolute : isAbsolute left = true)
    (between : isAbsolute middle = false) (relative : isAbsolute right = false) :
    lexicallyNormal (append left (append middle right)) =
      lexicallyNormal (append (append left middle) right) := by
  have joined : isAbsolute (append middle right) = false := by
    rw [isAbsolute_append relative, between]
  have rooted : isAbsolute (append left middle) = true := by
    rw [isAbsolute_append between, absolute]
  apply lexicallyNormal_eq_of_outline (append_ne_nil_of_absolute absolute joined)
    (append_ne_nil_of_absolute rooted relative)
  simp only [outline, names_append joined, names_append relative, names_append between,
    isAbsolute_append joined, isAbsolute_append relative, isAbsolute_append between,
    lastSegment_append joined, lastSegment_append relative, List.append_assoc]

theorem components_concat {name : Path} {front : List Path} (ends : names path = front ++ [name]) :
    ∃ root slash, components path = root ++ front ++ name :: slash ∧
      (slash = [] ∨ slash = [[]]) := by
  refine ⟨if isAbsolute path then [['/']] else [],
    if names path ≠ [] ∧ lastSegment path = [] then [[]] else [], ?_, ?_⟩
  · simp only [components, ends, List.append_assoc, List.cons_append, List.nil_append]
  · split
    · exact .inr rfl
    · exact .inl rfl

theorem isAbsolute_of_clean {name : Path} (clean : '/' ∉ name) : isAbsolute name = false := by
  cases name with
  | nil => rfl
  | cons char rest =>
      have other : char ≠ '/' := fun same => clean (by simp [same])
      simp [isAbsolute, other]

theorem names_ne_nil_of_relative (present : path ≠ []) (relative : isAbsolute path = false) :
    names path ≠ [] := by
  cases path with
  | nil => exact absurd rfl present
  | cons char rest =>
      have other : char ≠ '/' := by
        intro same
        simp [isAbsolute, same] at relative
      have split := List.splitOn_cons_eq_if_modifyHead (a := '/') char rest
      simp only [beq_iff_eq, other, ↓reduceIte] at split
      cases tail : rest.splitOn '/' with
      | nil => exact absurd tail (List.splitOn_ne_nil _ _)
      | cons head later => simp [names, segments, split, tail]

theorem components_of_relative (relative : isAbsolute path = false) :
    components path = names path ++ if names path ≠ [] ∧ lastSegment path = [] then [[]] else [] := by
  simp [components, relative]

theorem mem_components {char : Char} {name : Path} (member : name ∈ components path)
    (inside : char ∈ name) : char ∈ path := by
  simp only [components, List.mem_append] at member
  rcases member with (root | named) | slash
  · split at root
    · rename_i absolute
      obtain rfl := List.mem_singleton.mp root
      obtain rfl := List.mem_singleton.mp inside
      exact List.mem_of_head? (by simpa [isAbsolute] using absolute)
    · cases root
  · exact mem_of_mem_segment (List.mem_filter.mp named).1 inside
  · split at slash
    · rw [List.mem_singleton.mp slash] at inside
      cases inside
    · cases slash

/-- Names without separators; an empty one comes last. -/
def Trailing : List Path → Prop
  | [] => True
  | name :: rest => '/' ∉ name ∧ (name = [] → rest = []) ∧ Trailing rest

theorem trailing_components (relative : isAbsolute path = false) : Trailing (components path) := by
  rw [components_of_relative relative]
  have clean : ∀ name ∈ names path, name ≠ [] ∧ '/' ∉ name := fun _ => mem_names
  have ended : Trailing (if names path ≠ [] ∧ lastSegment path = [] then [[]] else []) := by
    split
    · exact ⟨List.not_mem_nil, fun _ => rfl, trivial⟩
    · trivial
  generalize (if names path ≠ [] ∧ lastSegment path = [] then [[]] else []) = slash at ended
  generalize names path = filenames at clean
  induction filenames with
  | nil => exact ended
  | cons name rest ih =>
      have first := clean name (List.mem_cons_self ..)
      exact ⟨first.2, fun empty => absurd empty first.1,
        ih fun other member => clean other (List.mem_cons_of_mem _ member)⟩

/-! ## Paths by their segments -/

/-- The names of a path, empty ones among them, down to its last segment. -/
structure Spells (list : List Path) (path : Path) : Prop where
  names : names path = list.filter (· ≠ [])
  last : lastSegment path = list.getLastD []

theorem spells_nil : Spells [] [] := ⟨rfl, rfl⟩

theorem spells_components (relative : isAbsolute path = false) : Spells (components path) path := by
  by_cases present : path = []
  · subst present
    exact spells_nil
  have named := names_ne_nil_of_relative present relative
  have clean : (LexicalPath.names path).filter (· ≠ []) = LexicalPath.names path :=
    List.filter_eq_self.mpr fun name member => by simpa using (mem_names member).1
  rw [components_of_relative relative]
  by_cases ended : lastSegment path = []
  · rw [if_pos ⟨named, ended⟩]
    exact ⟨by rw [List.filter_append, clean]; simp, by simp [ended]⟩
  · obtain ⟨front, split⟩ := names_eq_append_lastSegment ended
    rw [if_neg fun both => ended both.2, List.append_nil]
    exact ⟨clean.symm, by rw [split, List.getLastD_concat]⟩

theorem Spells.append {name : Path} (spells : Spells list path) (clean : '/' ∉ name) :
    Spells (list ++ [name]) (append path name) := by
  have relative := isAbsolute_of_clean clean
  have whole : segments name = [name] := List.splitOn_eq_singleton clean
  constructor
  · rw [names_append relative, spells.names, List.filter_append, LexicalPath.names, whole]
  · rw [lastSegment_append relative, List.getLastD_concat, lastSegment, whole]
    rfl

theorem Spells.concat (spells : Spells list path) (present : path ≠ [])
    (relative : isAbsolute path = false) : ∃ front, list = front ++ [lastSegment path] := by
  have named := names_ne_nil_of_relative present relative
  have nonempty : list ≠ [] := by
    intro none
    rw [spells.names, none] at named
    exact named rfl
  refine ⟨list.dropLast, ?_⟩
  rw [spells.last, List.getLastD_eq_getLast?, List.getLast?_eq_some_getLast nonempty]
  exact (List.dropLast_concat_getLast nonempty).symm

theorem collapse_filter (list : List Path) :
    collapse false (list.filter (· ≠ [])) = collapse false list := by
  have same : ∀ kept : List Path, (list.filter (· ≠ [])).foldl (push false) kept =
      list.foldl (push false) kept := by
    induction list with
    | nil => exact fun _ => rfl
    | cons name rest ih =>
        intro kept
        by_cases empty : name = []
        · have skipped : push false kept name = kept := by
            simp [push, empty]
          rw [List.filter_cons_of_neg (by simp [empty]), List.foldl_cons, skipped, ih]
        · rw [List.filter_cons_of_pos (by simpa using empty), List.foldl_cons, List.foldl_cons, ih]
  rw [collapse, collapse, same]

theorem append_ne_nil (present : left ≠ [] ∨ right ≠ []) : append left right ≠ [] := by
  unfold append
  split
  · rename_i absolute
    intro none
    simp [none] at absolute
  · split
    · simpa [imp_iff_not_or] using present
    · simp

/-! ## The components of a normal form -/

theorem collapse_append_plain (plain : ∀ name ∈ second, Plain name) :
    collapse rooted (first ++ second) = collapse rooted first ++ second := by
  rw [collapse_append, foldl_push_plain plain]
  simp

theorem lastSegment_lexicallyNormal (named : (outline path).names ≠ []) :
    lastSegment (lexicallyNormal path) = [] ↔
      (outline path).slash = true ∧ (outline path).names.getLast? ≠ some dotDot := by
  have wellFormed := outline_wellFormed path
  have present : path ≠ [] := by
    intro empty
    subst empty
    exact named (by decide)
  have split := Outline.segments_text wellFormed named
  rw [lexicallyNormal, if_neg present, lastSegment, split, Outline.segments]
  by_cases slash : (outline path).slash = true ∧ (outline path).names.getLast? ≠ some dotDot
  · rw [if_pos slash, List.getLastD_concat]
    exact ⟨fun _ => slash, fun _ => rfl⟩
  · rw [if_neg slash, List.append_nil]
    refine ⟨fun empty => ?_, fun both => absurd both slash⟩
    have ended := List.getLast?_eq_some_getLast named
    rw [List.getLastD_eq_getLast?, List.getLast?_append, ended] at empty
    exact absurd empty (wellFormed.nonempty _ (List.getLast_mem named))

theorem components_lexicallyNormal (present : path ≠ []) (relative : isAbsolute path = false) :
    components (lexicallyNormal path) =
      if collapse false (names path) = [] then [dot]
      else collapse false (names path) ++
        if (outline path).slash = true ∧ (outline path).names.getLast? ≠ some dotDot then [[]] else [] := by
  have outlined : (outline path).names = collapse false (names path) := by
    simp only [outline, relative]
  have normalRelative : isAbsolute (lexicallyNormal path) = false := by
    rw [isAbsolute_lexicallyNormal, relative]
  by_cases absent : collapse false (names path) = []
  · rw [if_pos absent, lexicallyNormal_of_names_nil present (outlined.trans absent), relative]
    rfl
  · have named : (outline path).names ≠ [] := outlined ▸ absent
    rw [if_neg absent, components_of_relative normalRelative, names_lexicallyNormal named]
    simp only [lastSegment_lexicallyNormal named, outlined, absent, not_false_eq_true, true_and,
      ne_eq]

/-! ## The directory of a path -/

/-- `parent_path`, of a relative path. -/
def parentPath (path : Path) : Path := (path.rdropWhile (· ≠ '/')).rdropWhile (· = '/')

example : parentPath ['a', '/', '/', 'b'] = ['a'] := by decide
example : parentPath ['a', '/', 'b', '/'] = ['a', '/', 'b'] := by decide

theorem names_rdropWhile_separator (path : Path) : names (path.rdropWhile (· = '/')) = names path := by
  induction path using List.reverseRecOn with
  | nil => rfl
  | append_singleton front char ih =>
      rw [List.rdropWhile_concat]
      by_cases separator : char = '/'
      · subst separator
        rw [if_pos (by decide), ih, names_append_separator, names_nil, List.append_nil]
      · rw [if_neg (by simpa using separator)]

theorem lastSegment_rdropWhile_separator (ended : lastSegment (path.rdropWhile (· = '/')) = []) :
    path.rdropWhile (· = '/') = [] := by
  rcases eq_append_separator_of_lastSegment ended with empty | ⟨front, split⟩
  · exact empty
  · have present : path.rdropWhile (· = '/') ≠ [] := by simp [split]
    have last := List.rdropWhile_last_not (p := (· = '/')) path present
    simp [split] at last

/-- Without its last segment a path is empty or ends with a separator. -/
theorem exists_stem (path : Path) :
    ∃ last, path = path.rdropWhile (· ≠ '/') ++ last ∧ '/' ∉ last ∧
      (path.rdropWhile (· ≠ '/') = [] ∨ ∃ front, path.rdropWhile (· ≠ '/') = front ++ ['/']) := by
  induction path using List.reverseRecOn with
  | nil => exact ⟨[], rfl, List.not_mem_nil, .inl rfl⟩
  | append_singleton front char ih =>
      rw [List.rdropWhile_concat]
      by_cases separator : char = '/'
      · rw [if_neg (by simpa using separator), separator]
        exact ⟨[], by simp, List.not_mem_nil, .inr ⟨front, rfl⟩⟩
      · rw [if_pos (by simpa using separator)]
        obtain ⟨last, split, clean, stem⟩ := ih
        refine ⟨last ++ [char], ?_, by simp [clean, Ne.symm separator], stem⟩
        rw [← List.append_assoc, ← split]

/-- The names of a path are those of its directory and the last one. -/
theorem names_parentPath (ended : lastSegment path ≠ []) :
    names path = names (parentPath path) ++ [lastSegment path] := by
  obtain ⟨last, split, clean, stem⟩ := exists_stem path
  have whole : segments last = [last] := List.splitOn_eq_singleton clean
  have own : lastSegment last = last := by rw [lastSegment, whole]; rfl
  rw [parentPath, names_rdropWhile_separator]
  rcases stem with empty | ⟨front, stem⟩
  · rw [empty, List.nil_append] at split
    rw [empty, names_nil, List.nil_append, split, own]
    rw [split, own] at ended
    exact names_single ended clean
  · rw [stem, List.append_assoc, List.singleton_append] at split
    have final : lastSegment path = last := by rw [split, lastSegment_append_separator, own]
    rw [final] at ended ⊢
    rw [stem, split, names_append_separator, names_append_separator, names_nil, List.append_nil,
      names_single ended clean]

theorem components_parentPath (relative : isAbsolute path = false) :
    components (parentPath path) = names (parentPath path) := by
  have within : parentPath path <+: path :=
    (List.rdropWhile_prefix _ _).trans (List.rdropWhile_prefix _ _)
  have relativeParent : isAbsolute (parentPath path) = false := by
    obtain ⟨rest, split⟩ := within
    cases here : parentPath path with
    | nil => rfl
    | cons char more =>
        rw [here] at split
        rwa [← split, List.cons_append, isAbsolute, List.head?_cons, ← List.head?_cons (l := more)] at relative
  rw [components_of_relative relativeParent, if_neg, List.append_nil]
  intro slashed
  obtain ⟨named, ended⟩ := slashed
  rw [parentPath] at named ended
  rw [lastSegment_rdropWhile_separator ended] at named
  exact named names_nil

/-! ## What comes below a directory -/

/-- The text below the directory that the first filename names is spelled by
the other ones. -/
theorem segments_below {name : Path} {rest : List Path} (nonempty : name ≠ []) (clean : '/' ∉ name)
    (absolute : isAbsolute path = true) (outlined : (outline path).names = name :: rest) :
    (lexicallyNormal path = '/' :: name ∧ rest = [] ∧ (outline path).slash = false) ∨
      ∃ below, lexicallyNormal path = '/' :: name ++ '/' :: below ∧
        segments below = rest ++ if (outline path).slash then [[]] else [] := by
  have present := ne_nil_of_absolute absolute
  have rooted : (outline path).rooted = true := absolute
  have plain : (outline path).names.getLast? ≠ some dotDot := by
    intro last
    exact (outline_wellFormed path).rootedPlain rooted _ (List.mem_of_getLast? last) rfl
  have split : segments (lexicallyNormal path) =
      [] :: name :: (rest ++ if (outline path).slash then [[]] else []) := by
    rw [lexicallyNormal, if_neg present,
      Outline.segments_text (outline_wellFormed path) (by simp [outlined]), Outline.segments, rooted]
    rw [outlined] at plain ⊢
    simp only [plain, ne_eq, not_false_eq_true, and_true, ↓reduceIte]
    rfl
  have whole : segments name = [name] := List.splitOn_eq_singleton clean
  rcases (below_iff_head nonempty clean absolute).mpr (by simp [outlined]) with same | ⟨below, same⟩
  · left
    rw [same, ← List.nil_append ('/' :: name), segments_append_separator, whole] at split
    have none : rest ++ (if (outline path).slash then [[]] else []) = [] :=
      (List.cons.inj (List.cons.inj split).2).2.symm
    obtain ⟨empty, slash⟩ := List.append_eq_nil_iff.mp none
    refine ⟨same, empty, eq_false_of_ne_true fun slashed => ?_⟩
    simp [slashed] at slash
  · right
    have spelled : lexicallyNormal path = '/' :: name ++ '/' :: below := by simp [← same]
    refine ⟨below, spelled, ?_⟩
    rw [spelled, segments_append_separator, ← List.nil_append ('/' :: name),
      segments_append_separator, whole] at split
    exact (List.cons.inj (List.cons.inj split).2).2

theorem isAbsolute_of_segments {rest : List Path} {slash : Bool} (nonempty : ∀ name ∈ rest, name ≠ [])
    (split : segments path = rest ++ if slash then [[]] else []) : isAbsolute path = false := by
  cases path with
  | nil => rfl
  | cons char after =>
      by_contra absolute
      have separator : char = '/' := by simpa [isAbsolute] using absolute
      subst separator
      rw [← List.nil_append ('/' :: after), segments_append_separator] at split
      have present : segments after ≠ [] := List.splitOn_ne_nil _ _
      cases rest with
      | nil =>
          cases slash with
          | false => cases split
          | true => exact present (List.cons.inj split).2
      | cons first more => exact nonempty first (by simp) (List.cons.inj split).1.symm

/-! ## A separator at the end -/

theorem outline_separator (present : path ≠ []) :
    outline (path ++ ['/']) = { outline path with slash := true } := by
  have named : names (path ++ ['/']) = names path := by
    rw [names_append_separator, names_nil, List.append_nil]
  have rooted : isAbsolute (path ++ ['/']) = isAbsolute path := by
    cases path with
    | nil => exact absurd rfl present
    | cons char rest => rfl
  have ended : lastSegment (path ++ ['/']) = [] := by
    rw [lastSegment_append_separator, lastSegment_nil]
  simp [outline, named, rooted, ended]

theorem below_separator {name : Path} (nonempty : name ≠ []) (clean : '/' ∉ name)
    (absolute : isAbsolute path = true) (below : Below ('/' :: name) (lexicallyNormal path)) :
    Below ('/' :: name) (lexicallyNormal (path ++ ['/'])) := by
  have present := ne_nil_of_absolute absolute
  have outlined := outline_separator present
  have rooted : isAbsolute (path ++ ['/']) = true := by
    have same : (outline (path ++ ['/'])).rooted = (outline path).rooted := by rw [outlined]
    exact same.trans absolute
  rw [below_iff_head nonempty clean rooted, outlined]
  exact (below_iff_head nonempty clean absolute).mp below

theorem getLast?_intercalate_nil (segments : List Path) (present : segments ≠ []) :
    (['/'].intercalate (segments ++ [[]])).getLast? = some '/' := by
  induction segments with
  | nil => exact absurd rfl present
  | cons segment rest ih =>
      cases rest with
      | nil => simp [List.intercalate_cons_cons]
      | cons next more =>
          have later := ih (by simp)
          rw [List.cons_append, List.cons_append, List.intercalate_cons_cons]
          rw [List.cons_append] at later
          rw [List.getLast?_append, later]
          rfl

theorem getLast?_lexicallyNormal_separator (absolute : isAbsolute path = true) :
    (lexicallyNormal (path ++ ['/'])).getLast? = some '/' := by
  have present := ne_nil_of_absolute absolute
  rw [lexicallyNormal, if_neg (by simp), outline_separator present, Outline.text]
  have rooted : (outline path).rooted = true := absolute
  split
  · rfl
  · rename_i named
    have plain : (outline path).names.getLast? ≠ some dotDot := by
      intro last
      have member := List.mem_of_getLast? last
      exact ((outline_wellFormed path).rootedPlain rooted _ member) rfl
    simp only [Outline.segments, plain, ne_eq, not_false_eq_true, and_self, ↓reduceIte]
    exact getLast?_intercalate_nil _ (by simp [named])

/-! ## Paths joined as text -/

section AsText

variable (absolute : isAbsolute left = true)
include absolute

theorem isAbsolute_text_append (right : Path) : isAbsolute (left ++ right) = true := by
  cases left with
  | nil => cases absolute
  | cons char rest => exact absolute

/-- A separator more between two paths makes no difference. -/
theorem lexicallyNormal_append_text (relative : isAbsolute right = false) :
    lexicallyNormal (left ++ '/' :: right) = lexicallyNormal (append left right) := by
  apply lexicallyNormal_eq_of_outline (by simp) (append_ne_nil_of_absolute absolute relative)
  simp only [outline, names_append_separator, names_append relative, lastSegment_append_separator,
    lastSegment_append relative, isAbsolute_text_append absolute, isAbsolute_append relative, absolute]

/-- A directory that is stored in normal form, with a separator at its end,
stands for the directory as it was given. -/
theorem lexicallyNormal_append_stored (relative : isAbsolute right = false) :
    lexicallyNormal (append (lexicallyNormal (lexicallyNormal left ++ ['/'])) right) =
      lexicallyNormal (left ++ '/' :: right) := by
  have normalAbsolute : isAbsolute (lexicallyNormal left) = true := by
    rw [isAbsolute_lexicallyNormal, absolute]
  have ended : lastSegment (lexicallyNormal left ++ ['/']) = [] := by
    rw [lastSegment_append_separator, lastSegment_nil]
  have joined : append (lexicallyNormal left ++ ['/']) right = lexicallyNormal left ++ '/' :: right := by
    rw [append, if_neg (by simp [relative]), if_pos ended, List.append_assoc, List.singleton_append]
  calc lexicallyNormal (append (lexicallyNormal (lexicallyNormal left ++ ['/'])) right)
      = lexicallyNormal (append (lexicallyNormal left ++ ['/']) right) :=
        lexicallyNormal_append_left (isAbsolute_text_append normalAbsolute _) relative
    _ = lexicallyNormal (lexicallyNormal left ++ '/' :: right) := by rw [joined]
    _ = lexicallyNormal (append (lexicallyNormal left) right) :=
        lexicallyNormal_append_text normalAbsolute relative
    _ = lexicallyNormal (append left right) := lexicallyNormal_append_left absolute relative
    _ = lexicallyNormal (left ++ '/' :: right) := (lexicallyNormal_append_text absolute relative).symm

end AsText

/-- Going into a directory and back. -/
theorem outline_into_and_back {name : Path} (plain : Plain name) (clean : '/' ∉ name) (front : Path) :
    outline (front ++ '/' :: (name ++ '/' :: dotDot)) = outline (front ++ ['/']) := by
  have rooted : isAbsolute (front ++ '/' :: (name ++ '/' :: dotDot)) = isAbsolute (front ++ ['/']) := by
    cases front <;> rfl
  have here : names (front ++ '/' :: (name ++ '/' :: dotDot)) = names front ++ [name] ++ [dotDot] := by
    rw [names_append_separator, names_append_separator, names_single plain.nonempty clean,
      List.append_assoc]
    rfl
  have there : names (front ++ ['/']) = names front := by
    rw [names_append_separator, names_nil, List.append_nil]
  have back : collapse (isAbsolute (front ++ ['/'])) (names front ++ [name] ++ [dotDot]) =
      collapse (isAbsolute (front ++ ['/'])) (names front) := by
    rw [collapse_append, collapse_concat plain, List.reverse_concat, List.foldl_cons, List.foldl_nil,
      push_dotDot plain.notDotDot, List.reverse_reverse]
  have slash : lastSegment (front ++ '/' :: (name ++ '/' :: dotDot)) = dotDot := by
    rw [lastSegment_append_separator, lastSegment_append_separator]
    rfl
  have slashed : lastSegment (front ++ ['/']) = [] := by
    rw [lastSegment_append_separator, lastSegment_nil]
  rw [outline, outline, rooted, here, there, back, slash, slashed]
  rfl

theorem outline_append_dot (path : Path) : outline (path ++ '/' :: dot) = outline (path ++ ['/']) := by
  have rooted : isAbsolute (path ++ '/' :: dot) = isAbsolute (path ++ ['/']) := by
    cases path <;> rfl
  have here : collapse (isAbsolute (path ++ ['/'])) (names (path ++ '/' :: dot)) =
      collapse (isAbsolute (path ++ ['/'])) (names (path ++ ['/'])) := by
    rw [names_append_separator, names_append_separator, names_nil, List.append_nil, collapse_append,
      collapse, List.reverse_reverse]
    rfl
  rw [outline, outline, rooted, here, lastSegment_append_separator, lastSegment_append_separator]
  rfl

/-- A rooted text of plain filenames is its own normal form. -/
theorem lexicallyNormal_rooted {outline : Outline} (wellFormed : outline.WellFormed)
    (rooted : outline.rooted = true) (present : outline.names ≠ []) :
    lexicallyNormal outline.text = outline.text := by
  have plain : ∀ name ∈ outline.names, Plain name := fun name member =>
    ⟨wellFormed.nonempty name member, wellFormed.noDot name member,
      wellFormed.rootedPlain rooted name member⟩
  have absolute := Outline.isAbsolute_text wellFormed
  have nonempty : outline.text ≠ [] := by
    intro empty
    rw [empty, rooted] at absolute
    cases absolute
  have last := plain _ (List.getLast_mem present)
  have slash : decide (lastSegment outline.text ∈ [[], dot, dotDot]) = outline.slash := by
    rw [lastSegment, Outline.segments_text wellFormed present, Outline.segments,
      List.getLast?_eq_some_getLast present, List.getLastD_eq_getLast?, List.getLast?_append,
      List.getLast?_append, List.getLast?_eq_some_getLast present]
    cases outline.slash with
    | true => simp [last.notDotDot]
    | false => simp [last.nonempty, last.notDot, last.notDotDot]
  have same : LexicalPath.outline outline.text = outline := by
    rw [LexicalPath.outline, absolute, Outline.names_text wellFormed present, collapse_plain plain, slash]
  rw [lexicallyNormal, if_neg nonempty, same]

/-! ## The text of a rooted path -/

/-- The filenames one below the other, from the root directory on. -/
def fromRoot (list : List Path) : Path := list.flatMap ('/' :: ·)

theorem fromRoot_cons (name : Path) (list : List Path) : fromRoot (name :: list) = '/' :: (name ++ fromRoot list) := by
  rw [fromRoot, List.flatMap_cons, List.cons_append]
  rfl

theorem intercalate_cons (name : Path) (list : List Path) :
    ['/'].intercalate (name :: list) = name ++ fromRoot list := by
  induction list generalizing name with
  | nil => simp [fromRoot]
  | cons next rest ih => simp [List.intercalate_cons_cons, ih next, fromRoot_cons]

theorem lexicallyNormal_fromRoot (absolute : isAbsolute path = true) (present : (outline path).names ≠ []) :
    lexicallyNormal path = fromRoot (outline path).names ∨
      lexicallyNormal path = fromRoot (outline path).names ++ ['/'] := by
  have rooted : (outline path).rooted = true := absolute
  rw [lexicallyNormal, if_neg (ne_nil_of_absolute absolute), Outline.text, if_neg present, Outline.segments, rooted]
  simp only [↓reduceIte, List.cons_append, intercalate_cons, List.nil_append]
  split
  · exact .inr List.flatMap_append
  · exact .inl (by rw [List.append_nil])

/-- A text without a separator that stands at the beginning stands in the first name. -/
theorem prefix_name {text name behind : Path} (clean : '/' ∉ text) (starts : text <+: name ++ fromRoot list ++ behind)
    (separated : behind = [] ∨ behind = ['/']) : text <+: name := by
  rw [List.append_assoc] at starts
  rcases List.prefix_or_prefix_of_prefix starts (List.prefix_append name _) with inside | ⟨more, rfl⟩
  · exact inside
  · have further := (List.prefix_append_right_inj name).mp starts
    cases more with
    | nil => simp
    | cons char rest =>
        refine absurd (List.mem_append_right name ?_) clean
        have first : (fromRoot list ++ behind).head? = some char := by
          obtain ⟨later, same⟩ := further
          rw [← same]
          rfl
        cases list with
        | nil =>
            rcases separated with rfl | rfl
            · cases first
            · cases first
              exact List.mem_cons_self
        | cons next others =>
            rw [fromRoot_cons] at first
            cases first
            exact List.mem_cons_self

/-- A rooted normal form that begins with a text begins with a name that does. -/
theorem prefix_head {text : Path} (present : text ≠ []) (clean : '/' ∉ text) (absolute : isAbsolute path = true)
    (starts : '/' :: text <+: lexicallyNormal path) :
    ∃ name, (outline path).names.head? = some name ∧ text <+: name := by
  cases listed : (outline path).names with
  | nil =>
      rw [lexicallyNormal_of_names_nil (ne_nil_of_absolute absolute) listed, if_pos absolute,
        List.cons_prefix_cons] at starts
      exact absurd (List.prefix_nil.mp starts.2) present
  | cons name rest =>
      have spelled : ∃ behind, (behind = [] ∨ behind = ['/']) ∧
          lexicallyNormal path = '/' :: (name ++ fromRoot rest ++ behind) := by
        rcases lexicallyNormal_fromRoot absolute (by simp [listed]) with same | same
        · exact ⟨[], .inl rfl, by rw [same, listed, fromRoot_cons, List.append_nil]⟩
        · exact ⟨['/'], .inr rfl, by rw [same, listed, fromRoot_cons]; rfl⟩
      obtain ⟨behind, separated, same⟩ := spelled
      rw [same, List.cons_prefix_cons] at starts
      exact ⟨name, rfl, prefix_name clean starts.2 separated⟩

end Tebako.Data.LexicalPath
