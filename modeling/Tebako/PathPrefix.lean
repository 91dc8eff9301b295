import Tebako.LinkTarget

namespace Tebako

open Data Data.Loop Data.LexicalPath

/-! The lookup of a path, and of the same path with names added to it.

Both go the same way up to where the shorter path ends. There the longer one has
the added names left, which is where a lookup that starts at this inode begins. -/

/-- Names added behind a path, and whether a separator comes after them. -/
structure Addition where
  names : List Path
  slash : Bool
  plain : ∀ name ∈ names, Plain name ∧ '/' ∉ name

def Named (names : List Path) : Prop := ∀ name ∈ names, name ≠ [] ∧ '/' ∉ name

def Ending (last : List Path) : Prop := last = [] ∨ last = [[]]

/-- What is left of a path, and of the path with the names added. With none
added there is still a separator behind it; it is lost where no name is left,
and a normal form has none behind `..`. -/
inductive Extends (added : Addition) : List Path → List Path → Prop where
  | intro {front ending last : List Path} (named : Named front) (ends : Ending ending)
      (endsLast : Ending last) (slash : added.names ≠ [] → (last = [[]] ↔ added.slash = true))
      (separator : added.names = [] → last = [[]] ∨ front = [] ∨ front.getLast? = some dotDot) :
      Extends added (front ++ ending) (front ++ added.names ++ last)

/-- An image has no entries `.` and `..`, and does not start at a link. -/
structure Memfs.Regular (memfs : Memfs) : Prop where
  dots : ∀ {inode : UInt32} {name : CString}, name.chars = dot ∨ name.chars = dotDot →
    memfs.findChild inode name = none
  root : ∀ {pi : InodeView} {st : FileStat}, memfs.find memfs.dwarfsRootInode = some pi →
    memfs.getattr pi = .ok st → st.isLnk = false

/-- All images are so, and `.` and `..` are the names of no mount points. -/
structure World.Regular (w : World) : Prop where
  images : ∀ {index : UInt32} {memfs : Memfs}, w.memfsTable[index]? = some memfs → memfs.Regular
  mounts : ∀ {inode : UInt32} {name : Str}, name = dot ∨ name = dotDot → w.mountTable[(inode, name)]? = none

def World.RegularImages (w : World) : Prop :=
  ∀ (index : UInt32) (memfs : Memfs), w.memfsTable[index]? = some memfs → memfs.Regular

/-- The name that comes next is not one of `.` and `..` that is a mount point. -/
def Undotted (w : World) : FindState → Prop
  | .start _ _ _ => True
  | .walk memfs pi _ rest => ∀ name ∈ rest.head?, name.chars = dot ∨ name.chars = dotDot →
      w.mountTable[(memfs.reported pi, name.chars)]? = none

/-- The attributes are those of the inode, or of a link passed on the way. -/
inductive Further (w : World) (added : Addition) : FindState → FindState → Prop where
  | start {memfs : Memfs} {inode : UInt32} {path longer : CString}
      (held : ∃ index : UInt32, w.memfsTable[index]? = some memfs)
      (root : inode = memfs.dwarfsRootInode)
      (extended : Extends added (components path.chars) (components longer.chars)) :
      Further w added (.start memfs inode path) (.start memfs inode longer)
  | walk {memfs : Memfs} {pi : InodeView} {st : FileStat} {rest more : List CString}
      (held : ∃ index : UInt32, w.memfsTable[index]? = some memfs)
      (own : memfs.getattr pi = .ok st ∨ st.isLnk = true)
      (extended : Extends added (rest.map (·.chars)) (more.map (·.chars))) :
      Further w added (.walk memfs pi st rest) (.walk memfs pi st more)

variable {added : Addition} {front ending last body : List Path} {path : Path}

theorem Ending.getLastD (ends : Ending last) (named : Named body) :
    (body ++ last).getLastD [] = [] ↔ body = [] ∨ last = [[]] := by
  rcases ends with rfl | rfl
  · rw [List.append_nil]
    by_cases empty : body = []
    · simp [empty]
    · have final := named _ (List.getLast_mem empty)
      simp [List.getLastD_eq_getLast?, List.getLast?_eq_some_getLast empty, empty, final.1]
  · simp

theorem Ending.filter (ends : Ending last) (named : Named body) :
    (body ++ last).filter (· ≠ []) = body := by
  have kept : body.filter (· ≠ []) = body :=
    List.filter_eq_self.mpr fun name member => by simpa using (named name member).1
  rcases ends with rfl | rfl
  · rw [List.append_nil, kept]
  · rw [List.filter_append, kept]
    simp

/-- The components of a relative path that these segments spell. -/
theorem components_of_spelled (relative : isAbsolute path = false) (named : Named body)
    (ends : Ending last) (spells : Spells (body ++ last) path) :
    components path = body ++ if body ≠ [] ∧ last = [[]] then [[]] else [] := by
  rw [components_of_relative relative, spells.names, spells.last, ends.filter named]
  simp only [ends.getLastD named]
  by_cases empty : body = []
  · simp [empty]
  · simp [empty]

theorem Addition.named (added : Addition) : Named added.names :=
  fun name member => ⟨(added.plain name member).1.nonempty, (added.plain name member).2⟩

theorem Named.append {second : List Path} (named : Named body) (more : Named second) :
    Named (body ++ second) := by
  intro name member
  rcases List.mem_append.mp member with first | later
  · exact named name first
  · exact more name later

theorem clean_of_named {rest : List CString} (named : Named front) (ends : Ending ending)
    (split : rest.map (·.chars) = front ++ ending) : ∀ name ∈ rest, '/' ∉ name.chars := by
  intro name member
  have listed : name.chars ∈ front ++ ending := split ▸ List.mem_map_of_mem member
  rcases List.mem_append.mp listed with inside | after
  · exact (named name.chars inside).2
  · rcases ends with rfl | rfl
    · cases after
    · rw [List.mem_singleton.mp after]
      exact List.not_mem_nil

/-- A mounted image is looked up from its root with the names that are left. -/
theorem components_foldl_join {rest : List CString} (named : Named front) (ends : Ending ending)
    (split : rest.map (·.chars) = front ++ ending) :
    components (rest.foldl CString.join .empty).chars =
      front ++ if front ≠ [] ∧ ending = [[]] then [[]] else [] := by
  have clean := clean_of_named named ends split
  have spells := @CString.spells_foldl_join [] rest .empty spells_nil clean
  rw [List.nil_append, split] at spells
  have relative := @CString.isAbsolute_foldl_join rest .empty clean
  exact components_of_spelled relative named ends spells

theorem ending_ite {condition : Prop} [Decidable condition] :
    Ending (if condition then [[]] else []) := by
  split
  · exact .inr rfl
  · exact .inl rfl

theorem ite_eq_slash_iff {condition : Prop} [Decidable condition] :
    (if condition then [[]] else ([] : List Path)) = [[]] ↔ condition := by
  by_cases holds : condition <;> simp [holds]

theorem extends_join {rest more : List CString}
    (extended : Extends added (rest.map (·.chars)) (more.map (·.chars))) :
    Extends added (components (rest.foldl CString.join .empty).chars)
      (components (more.foldl CString.join .empty).chars) := by
  generalize shorter : rest.map (·.chars) = spelled at extended
  generalize longer : more.map (·.chars) = spelledMore at extended
  cases extended with
  | @intro front ending last named ends endsLast slash separator =>
      rw [components_foldl_join named ends shorter,
        components_foldl_join (named.append added.named) endsLast longer]
      refine .intro named ending_ite ending_ite (fun present => ?_) (fun absent => ?_)
      · rw [← slash present]
        simp [present]
      · rcases separator absent with rfl | rfl | up
        · by_cases empty : front = []
          · exact .inr (.inl empty)
          · exact .inl (by simp [empty])
        · exact .inr (.inl rfl)
        · exact .inr (.inr up)

/-! ## Behind a link -/

theorem names_joined {rest : List CString} {target : CString} (named : Named front)
    (ends : Ending ending) (split : rest.map (·.chars) = front ++ ending) :
    names (rest.foldl CString.join target).chars = names target.chars ++ front ∧
      lastSegment (rest.foldl CString.join target).chars =
        (front ++ ending).getLastD (lastSegment target.chars) := by
  have clean := clean_of_named named ends split
  rw [CString.names_foldl_join clean, CString.lastSegment_foldl_join clean, split, ends.filter named]
  exact ⟨rfl, rfl⟩

/-- Whether the normal form ends with a separator is up to the names added. -/
theorem slash_joined {long before : Path} (endsLast : Ending last)
    (slash : added.names ≠ [] → (last = [[]] ↔ added.slash = true))
    (separator : added.names = [] → last = [[]] ∨ front.getLast? = some dotDot)
    (lastLong : lastSegment long = (front ++ added.names ++ last).getLastD before) :
    (added.names ≠ [] → ((outline long).slash = true ↔ added.slash = true)) ∧
      (added.names = [] → (outline long).slash = true) := by
  rw [outline, decide_eq_true_iff, lastLong]
  refine ⟨fun present => ?_, fun absent => ?_⟩
  · rw [← slash present]
    rcases endsLast with rfl | rfl
    · have plain := (added.plain _ (List.getLast_mem present)).1
      have ended : (front ++ added.names ++ []).getLastD before = added.names.getLast present := by
        simp [List.getLastD_eq_getLast?, List.getLast?_append, List.getLast?_eq_some_getLast present]
      rw [ended]
      simp [plain.nonempty, plain.notDot, plain.notDotDot]
    · simp [List.getLastD_eq_getLast?]
  · rw [absent]
    rcases endsLast with rfl | rfl
    · have up := (separator absent).resolve_left (by simp)
      simp [List.getLastD_eq_getLast?, up]
    · simp [List.getLastD_eq_getLast?]

theorem named_collapse (named : Named body) : Named (collapse false body) := by
  intro name member
  refine ⟨(mem_collapse member).1, ?_⟩
  rcases mem_of_mem_collapse member with listed | up
  · exact (named name listed).2
  · rw [up]
    decide

theorem named_names (path : Path) : Named (names path) := fun _ => mem_names

theorem Addition.getLast?_ne (added : Addition) (present : added.names ≠ []) (front : List Path) :
    (front ++ added.names).getLast? ≠ some dotDot := by
  have ended := List.getLast?_eq_some_getLast present
  have plain := (added.plain _ (List.getLast_mem present)).1
  rw [List.getLast?_append, ended]
  simpa using plain.notDotDot

theorem eq_nil_of_names (relative : isAbsolute path = false) (none : names path = []) : path = [] := by
  by_contra present
  exact names_ne_nil_of_relative present relative none

/-- The normal form of the longer path is that of the shorter one with the names
added, except that the shorter one may be `.` alone. -/
theorem extends_lexicallyNormal {short long : Path} (named : Named body)
    (relativeShort : isAbsolute short = false) (relativeLong : isAbsolute long = false)
    (namesShort : names short = body) (namesLong : names long = body ++ added.names)
    (slash : added.names ≠ [] → ((outline long).slash = true ↔ added.slash = true))
    (separator : added.names = [] → (outline long).slash = true) :
    Extends added (components (lexicallyNormal short)) (components (lexicallyNormal long)) ∨
      components (lexicallyNormal short) = [dot] := by
  have plain : ∀ name ∈ added.names, Plain name := fun name member => (added.plain name member).1
  have collapsed : collapse false (names long) = collapse false body ++ added.names := by
    rw [namesLong, collapse_append_plain plain]
  have outlined : (outline long).names = collapse false body ++ added.names := by
    simp only [outline, relativeLong, collapsed]
  by_cases emptyLong : long = []
  · left
    subst emptyLong
    obtain ⟨rfl, none⟩ := List.append_eq_nil_iff.mp (namesLong.symm.trans names_nil)
    obtain rfl := eq_nil_of_names relativeShort namesShort
    have nothing : Extends added ([] ++ []) ([] ++ added.names ++ []) :=
      .intro (by simp [Named]) (.inl rfl) (.inl rfl) (fun present => absurd none present)
        (fun _ => .inr (.inl rfl))
    rw [none] at nothing
    exact nothing
  have longer := components_lexicallyNormal emptyLong relativeLong
  rw [collapsed, outlined] at longer
  by_cases emptyShort : short = []
  · left
    subst emptyShort
    obtain rfl : [] = body := namesShort
    have present : added.names ≠ [] := by
      intro none
      exact emptyLong (eq_nil_of_names relativeLong (by rw [namesLong, none]; rfl))
    have last := added.getLast?_ne present []
    rw [List.nil_append] at last
    have nothing : collapse false [] = [] := rfl
    rw [longer, nothing, List.nil_append, if_neg present]
    refine @Extends.intro added [] [] _ (by simp [Named]) (.inl rfl) ending_ite (fun _ => ?_)
      (fun none => absurd none present)
    rw [← slash present, ite_eq_slash_iff, and_iff_left last]
  · have shorter := components_lexicallyNormal emptyShort relativeShort
    have outlinedShort : (outline short).names = collapse false body := by
      simp only [outline, relativeShort, namesShort]
    rw [namesShort, outlinedShort] at shorter
    by_cases none : collapse false body = []
    · right
      rw [shorter, if_pos none]
    · left
      have present : collapse false body ++ added.names ≠ [] := by simp [none]
      rw [shorter, longer, if_neg none, if_neg present]
      refine .intro (named_collapse named) ending_ite ending_ite (fun present => ?_) (fun absent => ?_)
      · rw [← slash present, ite_eq_slash_iff, and_iff_left (added.getLast?_ne present _)]
      · by_cases up : (collapse false body).getLast? = some dotDot
        · exact .inr (.inr up)
        · left
          simp [absent, up, separator absent]

/-- The rest of the path behind a link, in its normal form. -/
theorem extends_processLink {rest more : List CString} {target : CString} (named : Named front)
    (ends : Ending ending) (endsLast : Ending last)
    (slash : added.names ≠ [] → (last = [[]] ↔ added.slash = true))
    (separator : added.names = [] → last = [[]] ∨ front.getLast? = some dotDot)
    (shorter : rest.map (·.chars) = front ++ ending)
    (longer : more.map (·.chars) = front ++ added.names ++ last)
    (relative : isAbsolute target.chars = false) :
    Extends added (components (processLink target rest).chars)
        (components (processLink target more).chars) ∨
      components (processLink target rest).chars = [dot] := by
  have namedLonger := named.append added.named
  obtain ⟨namesShort, _⟩ := @names_joined _ _ _ target named ends shorter
  obtain ⟨namesLong, lastLong⟩ := @names_joined _ _ _ target namedLonger endsLast longer
  obtain ⟨slashes, separates⟩ := slash_joined endsLast slash separator lastLong
  exact extends_lexicallyNormal ((named_names target.chars).append named)
    ((CString.isAbsolute_foldl_join (clean_of_named named ends shorter)).trans relative)
    ((CString.isAbsolute_foldl_join (clean_of_named namedLonger endsLast longer)).trans relative)
    namesShort (by rw [namesLong, List.append_assoc]) slashes separates

/-! ## Below the mount point -/

theorem components_of_segments {body : List Path} {slash : Bool} (named : Named body)
    (split : segments path = body ++ if slash then [[]] else []) :
    components path = body ++ if body ≠ [] ∧ slash = true then [[]] else [] := by
  have relative := isAbsolute_of_segments (fun name member => (named name member).1) split
  have spells : Spells (body ++ if slash then [[]] else []) path := by
    constructor
    · rw [names, split]
    · rw [lastSegment, split]
  rw [components_of_spelled relative named ending_ite spells]
  simp only [ite_eq_slash_iff]

theorem named_outline {name : Path} {rest : List Path} (outlined : (outline path).names = name :: rest) :
    Named rest := by
  intro other member
  have listed : other ∈ (outline path).names := by simp [outlined, member]
  exact ⟨(outline_wellFormed path).nonempty other listed,
    (outline_wellFormed path).noSeparator other listed⟩

theorem components_below {name : Path} {rest : List Path} (nonempty : name ≠ []) (clean : '/' ∉ name)
    (absolute : isAbsolute path = true) (outlined : (outline path).names = name :: rest) :
    components ((lexicallyNormal path).drop (name.length + 2)) =
      rest ++ if rest ≠ [] ∧ (outline path).slash = true then [[]] else [] := by
  have named := named_outline outlined
  rcases segments_below nonempty clean absolute outlined with ⟨same, rfl, _⟩ | ⟨below, same, split⟩
  · rw [same, List.drop_eq_nil_of_le (by simp)]
    rfl
  · have here : ('/' :: name ++ '/' :: below).drop (name.length + 2) = below := by simp
    rw [same, here]
    exact components_of_segments named split

/-- What is looked up below the mount point for the two paths. -/
theorem extends_below {name short long : Path} {rest : List Path} (nonempty : name ≠ [])
    (clean : '/' ∉ name) (absoluteShort : isAbsolute short = true)
    (absoluteLong : isAbsolute long = true) (outlined : (outline short).names = name :: rest)
    (longer : (outline long).names = (outline short).names ++ added.names)
    (slash : added.names ≠ [] → ((outline long).slash = true ↔ added.slash = true))
    (separator : added.names = [] → (outline long).slash = true) :
    Extends added (components ((lexicallyNormal short).drop (name.length + 2)))
      (components ((lexicallyNormal long).drop (name.length + 2))) := by
  have outlinedLong : (outline long).names = name :: (rest ++ added.names) := by
    rw [longer, outlined, List.cons_append]
  rw [components_below nonempty clean absoluteShort outlined,
    components_below nonempty clean absoluteLong outlinedLong]
  refine .intro (named_outline outlined) ending_ite ending_ite (fun present => ?_) (fun absent => ?_)
  · rw [ite_eq_slash_iff, ← slash present]
    simp [present]
  · by_cases empty : rest = []
    · exact .inr (.inl empty)
    · exact .inl (by simp [empty, separator absent])

/-! ## The two lookups -/

section Lookups

variable {w : World} {before follow : Bool} {memfs : Memfs} {pi : InodeView} {st : FileStat}
variable {state after longer : FindState} {name : CString} {rest more : List CString}

/-- The next name of both paths. -/
theorem Extends.cons {first : Path} {shorter spelled : List Path} (named : first ≠ [])
    (plain : first ≠ dotDot) (extended : Extends added (first :: shorter) spelled) :
    ∃ front ending last, shorter = front ++ ending ∧
      spelled = first :: (front ++ added.names ++ last) ∧ Named front ∧ Ending ending ∧ Ending last ∧
      (added.names ≠ [] → (last = [[]] ↔ added.slash = true)) ∧
      (added.names = [] → last = [[]] ∨ front.getLast? = some dotDot) := by
  generalize split : first :: shorter = list at extended
  cases extended with
  | @intro front ending last names ends endsLast slash separator =>
      cases front with
      | nil =>
          rcases ends with rfl | rfl
          · cases split
          · exact absurd (List.cons.inj split).1 named
      | cons head front =>
          obtain ⟨rfl, rfl⟩ := List.cons.inj split
          refine ⟨front, ending, last, rfl, rfl,
            fun name member => names name (List.mem_cons_of_mem _ member), ends, endsLast, slash,
            fun absent => ?_⟩
          rcases separator absent with slash | none | up
          · exact .inl slash
          · cases none
          · right
            cases front with
            | nil => exact absurd (Option.some.inj up) plain
            | cons next later => rwa [List.getLast?_cons_cons] at up

theorem World.Regular.all (regular : w.Regular) : w.RegularImages := fun _ _ there => regular.images there

theorem World.Regular.undotted (regular : w.Regular) : Undotted w state := by
  cases state with
  | start memfs inode path => trivial
  | walk memfs pi st rest => exact fun name _ dots => regular.mounts dots

theorem World.RegularImages.root {inode : UInt32} (images : w.RegularImages)
    (held : ∃ index : UInt32, w.memfsTable[index]? = some memfs)
    (root : inode = memfs.dwarfsRootInode) (found : memfs.find inode = some pi)
    (stat : memfs.getattr pi = .ok st) : st.isLnk = false := by
  obtain ⟨index, there⟩ := held
  exact (images index memfs there).root (root ▸ found) stat

theorem World.RegularImages.child_ne_dotDot {inode : UInt32} {child : InodeView} (images : w.RegularImages)
    (held : ∃ index : UInt32, w.memfsTable[index]? = some memfs)
    (found : memfs.findChild inode name = some child) : name.chars ≠ dotDot := by
  intro up
  obtain ⟨index, there⟩ := held
  rw [(images index memfs there).dots (.inr up)] at found
  cases found

theorem Undotted.mount_ne_dotDot {target : TebakoMountTarget}
    (undotted : Undotted w (.walk memfs pi st (name :: rest)))
    (mount : w.mountTable[(memfs.reported pi, name.chars)]? = some target) : name.chars ≠ dotDot := by
  intro up
  rw [undotted name rfl (.inr up)] at mount
  cases mount

theorem lost_of_undotted (images : w.RegularImages) (held : ∃ index : UInt32, w.memfsTable[index]? = some memfs)
    (undotted : Undotted w (.walk memfs pi st (name :: rest)))
    (dots : name.chars = dot ∨ name.chars = dotDot) :
    findBody w follow (.walk memfs pi st (name :: rest)) = .halt (.error .ENOENT) := by
  obtain ⟨index, there⟩ := held
  have named : name.chars ≠ [] := by
    rcases dots with same | same <;> rw [same] <;> decide
  have free := undotted name rfl dots
  simp only [findBody, named, ↓reduceIte, free, (images index memfs there).dots dots]

/-- The lookup does not fail here, nor does it end at a link. -/
def Proceeds (w : World) (follow : Bool) (state : FindState) : Prop :=
  ∀ found, findBody w follow state = .halt found →
    (∀ errno, found ≠ .error errno) ∧ ∀ seen, found = .ok (.inode seen) → seen.isLnk = false

theorem proceeds_of_returns (notLink : st.isLnk = false)
    (returned : Returns (findBody w before) state (.ok (.inode st))) : Proceeds w before state := by
  intro found stopped
  obtain rfl := (returned.unique (returns_of_halt stopped)).symm
  refine ⟨by simp, fun seen same => ?_⟩
  cases same
  exact notLink

theorem Proceeds.not_link {seen : FileStat} (link : seen.isLnk = true)
    (proceeds : Proceeds w before (.walk memfs pi seen [])) : False := by
  have plain := (proceeds (.ok (.inode seen)) rfl).2 seen rfl
  rw [link] at plain
  cases plain

theorem Proceeds.not_dot (images : w.RegularImages) (held : ∃ index : UInt32, w.memfsTable[index]? = some memfs)
    {seen : FileStat} (undotted : Undotted w (.walk memfs pi seen rest)) (spelled : rest.map (·.chars) = [dot])
    (proceeds : Proceeds w before (.walk memfs pi seen rest)) : False := by
  obtain ⟨name, later, rfl, here, _⟩ := List.map_eq_cons_iff.mp spelled
  exact (proceeds _ (lost_of_undotted images held undotted (.inl here))).1 _ rfl

/-- The same name comes next, and what is left after it. -/
structure Continues (added : Addition) (name : CString) (rest more : List CString)
    (front ending last : List Path) (later : List CString) : Prop where
  next : more = name :: later
  shorter : rest.map (·.chars) = front ++ ending
  longer : later.map (·.chars) = front ++ added.names ++ last
  named : Named front
  ends : Ending ending
  endsLast : Ending last
  slash : added.names ≠ [] → (last = [[]] ↔ added.slash = true)
  separator : added.names = [] → last = [[]] ∨ front.getLast? = some dotDot

theorem Extends.continues (named : name.chars ≠ []) (plain : name.chars ≠ dotDot)
    (extended : Extends added ((name :: rest).map (·.chars)) (more.map (·.chars))) :
    ∃ front ending last later, Continues added name rest more front ending last later := by
  obtain ⟨front, ending, last, shorter, longer, names, ends, endsLast, slash, separator⟩ :=
    extended.cons named plain
  obtain ⟨next, later, rfl, same, afterwards⟩ := List.map_eq_cons_iff.mp longer
  obtain rfl : next = name := CString.ext same
  exact ⟨front, ending, last, later, rfl, shorter, afterwards, names, ends, endsLast, slash, separator⟩

variable {front ending last : List Path} {later : List CString}

theorem Continues.extends (continues : Continues added name rest more front ending last later) :
    Extends added (rest.map (·.chars)) (later.map (·.chars)) := by
  rw [continues.shorter, continues.longer]
  refine .intro continues.named continues.ends continues.endsLast continues.slash fun absent => ?_
  exact (continues.separator absent).imp_right .inr

theorem Continues.later_ne_nil (continues : Continues added name rest more front ending last later) :
    later ≠ [] := by
  intro same
  subst same
  obtain ⟨none, rfl⟩ := List.append_eq_nil_iff.mp continues.longer.symm
  obtain ⟨rfl, absent⟩ := List.append_eq_nil_iff.mp none
  rcases continues.separator absent with slash | up
  · cases slash
  · cases up

/-- After a relative link or mount point both paths have been put into their
normal forms. -/
theorem Continues.relink {target : CString} {seen : FileStat} (images : w.RegularImages)
    (held : ∃ index : UInt32, w.memfsTable[index]? = some memfs)
    (undotted : Undotted w (.walk memfs pi seen (processLink target rest).components))
    (continues : Continues added name rest more front ending last later)
    (relative : isAbsolute (processLink target rest).chars = false)
    (proceeds : Proceeds w before (.walk memfs pi seen (processLink target rest).components)) :
    isAbsolute (processLink target later).chars = false ∧
      Extends added ((processLink target rest).components.map (·.chars))
        ((processLink target later).components.map (·.chars)) := by
  have clean := clean_of_named continues.named continues.ends continues.shorter
  have cleanLater :=
    clean_of_named (continues.named.append added.named) continues.endsLast continues.longer
  have whole : isAbsolute target.chars = false := by
    rwa [processLink, CString.normal_chars, isAbsolute_lexicallyNormal,
      CString.isAbsolute_foldl_join clean] at relative
  rw [CString.components_chars, CString.components_chars]
  refine ⟨?_, ?_⟩
  · rw [processLink, CString.normal_chars, isAbsolute_lexicallyNormal,
      CString.isAbsolute_foldl_join cleanLater, whole]
  · rcases extends_processLink continues.named continues.ends continues.endsLast continues.slash
      continues.separator continues.shorter continues.longer whole with extended | only
    · exact extended
    · rw [← CString.components_chars] at only
      exact (proceeds.not_dot images held undotted only).elim

/-- What the shorter path does at a name, the longer one does as well. -/
theorem further_step (images : w.RegularImages) (here : Undotted w state) (there : Undotted w after)
    (move : FindMove w before state after)
    (proceeds : Proceeds w before after) (further : Further w added state longer) :
    ∃ next, FindMove w follow longer next ∧ Further w added after next := by
  cases further with
  | @start memfs inode path longer held root extended =>
      cases move with
      | @entered _ _ _ pi seen left found passed =>
          obtain ⟨stat, ⟨file, rfl⟩ | ⟨link, _⟩⟩ := passed_cases passed
          · refine ⟨_, .entered found (processInode_file stat file), .walk held (.inl stat) ?_⟩
            rwa [CString.components_chars, CString.components_chars]
          · rw [images.root held root found stat] at link
            cases link
  | @walk memfs pi seen spelled more held own extended =>
      cases move with
      | @child _ _ child reached _ name rest left named free found passed =>
          have plain := images.child_ne_dotDot held found
          obtain ⟨front, ending, last, later, continues⟩ := extended.continues named plain
          obtain rfl := continues.next
          obtain ⟨stat, ⟨file, rfl⟩ | ⟨link, _, final, rfl⟩⟩ := passed_cases passed
          · exact ⟨_, .child named free found (processInode_file stat file),
              .walk held (.inl stat) continues.extends⟩
          · obtain rfl : left = [] := final
            exact (proceeds.not_link link).elim
      | @relativeLink _ _ child reached _ name lnk rest named free found linked relative =>
          have plain := images.child_ne_dotDot held found
          obtain ⟨front, ending, last, later, continues⟩ := extended.continues named plain
          obtain rfl := continues.next
          have link := linked_is_link linked
          obtain ⟨stat, target, read, rfl⟩ := processInode_link linked
          obtain ⟨stays, extended⟩ := continues.relink images held there relative proceeds
          exact ⟨_, .relativeLink named free found
            (processInode_followed stat link read (.inl continues.later_ne_nil)) stays,
            .walk held (.inr link) extended⟩
      | @relativeMount _ _ _ name target rest named mount relative =>
          have plain := here.mount_ne_dotDot mount
          obtain ⟨front, ending, last, later, continues⟩ := extended.continues named plain
          obtain rfl := continues.next
          obtain ⟨stays, extended⟩ := continues.relink images held there relative proceeds
          exact ⟨_, .relativeMount named mount stays, .walk held own extended⟩
      | @memfsMount _ mounted _ _ name rest index named mount mountedAt =>
          have plain := here.mount_ne_dotDot mount
          obtain ⟨front, ending, last, later, continues⟩ := extended.continues named plain
          obtain rfl := continues.next
          exact ⟨_, .memfsMount named mount mountedAt, .start ⟨index, mountedAt⟩ rfl (extends_join continues.extends)⟩

/-- The longer path has come to the directory that the shorter one ends at. -/
structure Arrives (w : World) (added : Addition) (st : FileStat) (memfs : Memfs) (pi : InodeView)
    (more : List CString) (last : List Path) : Prop where
  held : ∃ index : UInt32, w.memfsTable[index]? = some memfs
  stat : memfs.getattr pi = .ok st
  left : more.map (·.chars) = added.names ++ last
  ends : Ending last
  slash : added.names ≠ [] → (last = [[]] ↔ added.slash = true)

/-- With nothing left of the shorter path, only the added names are left. -/
theorem arrives_of_ended (notLink : st.isLnk = false)
    (ended : ∀ name ∈ rest.head?, name.chars = [])
    (further : Further w added (.walk memfs pi st rest) longer) :
    ∃ more last, longer = .walk memfs pi st more ∧ Arrives w added st memfs pi more last := by
  cases further with
  | @walk memfs pi st spelled more held own extended =>
      have stat : memfs.getattr pi = .ok st := by
        rcases own with own | link
        · exact own
        · rw [notLink] at link
          cases link
      generalize short : rest.map (·.chars) = shorter at extended
      generalize long : more.map (·.chars) = spelled at extended
      cases extended with
      | @intro front ending last named ends endsLast slash separator =>
          have empty : front = [] := by
            cases front with
            | nil => rfl
            | cons first front =>
                obtain ⟨name, _, rfl, same, _⟩ := List.map_eq_cons_iff.mp short
                have here := ended name (by simp)
                rw [same] at here
                exact absurd here (named first (by simp)).1
          subst empty
          exact ⟨more, last, rfl, held, stat, long, endsLast, slash⟩

theorem arrives_undotted (images : w.RegularImages) (notLink : st.isLnk = false)
    (returned : Returns (findBody w before) state (.ok (.inode st)))
    (undotted : ∀ reached, Relation.ReflTransGen (Moves (findBody w before)) state reached →
      Undotted w reached)
    (further : Further w added state longer) :
    ∃ memfs pi rest more last,
      Relation.ReflTransGen (Moves (findBody w before)) state (.walk memfs pi st rest) ∧
        (∀ name ∈ rest.head?, name.chars = []) ∧
        Relation.ReflTransGen (Moves (findBody w follow)) longer (.walk memfs pi st more) ∧
        Arrives w added st memfs pi more last := by
  induction returned using Returns.rec_on generalizing longer with
  | halt state stopped =>
      cases findHalt_of_halt stopped with
      | inode ended =>
          obtain ⟨more, last, rfl, arrived⟩ := arrives_of_ended notLink ended further
          exact ⟨_, _, _, more, last, .refl, ended, .refl, arrived⟩
  | next state after moved rest ih =>
      obtain ⟨next, move, further⟩ :=
        @further_step _ w before follow state after longer images (undotted state .refl)
          (undotted after (.single moved)) (findMove_of_next moved) (proceeds_of_returns notLink rest) further
      obtain ⟨memfs, pi, left, more, last, ends, ended, reached, arrived⟩ :=
        ih (fun reached path => undotted reached (path.head moved)) further
      exact ⟨memfs, pi, left, more, last, ends.head moved, ended, reached.head (findBody_of_move move), arrived⟩

end Lookups

theorem regular_of_entries {memfs : Memfs} {entries : List ImageEntry}
    (image : memfs.fs = .ofEntries entries)
    (named : ∀ entry ∈ entries, entry.name.chars ≠ dot ∧ entry.name.chars ≠ dotDot) :
    memfs.Regular where
  dots {inode name} dots := by
    by_contra found
    obtain ⟨child, found⟩ := Option.ne_none_iff_exists'.mp found
    rw [Memfs.findChild, image] at found
    obtain ⟨index, place, _⟩ := Option.map_eq_some_iff.mp found
    obtain ⟨bound, holds, _⟩ := List.findIdx?_eq_some_iff_getElem.mp place
    have clean := named _ (List.getElem_mem bound)
    have same : entries[index].name = name := (of_decide_eq_true holds).2
    rw [same] at clean
    exact dots.elim clean.1 clean.2
  root {pi st} found stat := by
    have first : memfs.find memfs.dwarfsRootInode = some ⟨0⟩ := by
      simp [Memfs.find, image, Dwarfs.ofEntries]
    obtain rfl : ⟨0⟩ = pi := Option.some.inj (first.symm.trans found)
    rw [Memfs.getattr, image] at stat
    cases stat
    change ((0o040755 : UInt32) &&& fileTypeMask == 0o120000) = false
    decide

end Tebako
