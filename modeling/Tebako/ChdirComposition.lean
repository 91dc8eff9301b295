import Tebako.WorkingDirs

namespace Tebako

open Data Data.LexicalPath

/-! Relative paths, from a directory that `tebako_chdir` has come to step by
step. -/

/-- The two paths as text, with a separator between them. -/
def CString.slash (dir path : CString) : CString where
  chars := dir.chars ++ '/' :: path.chars
  noNul member := by
    rcases List.mem_append.mp member with inDir | inPath
    · exact dir.noNul inDir
    · rcases List.mem_cons.mp inPath with separator | inPath
      · exact absurd separator (by decide)
      · exact path.noNul inPath

@[simp] theorem CString.slash_chars (dir path : CString) :
    (dir.slash path).chars = dir.chars ++ '/' :: path.chars := rfl

/-- The normal form has place in a path buffer. -/
def FitsBuffer (path : CString) : Prop := path.normal.chars.length ≤ tebakoPathLength

def EndsInside (path : CString) : Prop := Below tebakoMountPoint path.normal.chars

instance (path : CString) : Decidable (FitsBuffer path) := inferInstanceAs (Decidable (_ ≤ _))

instance (path : CString) : Decidable (EndsInside path) := inferInstanceAs (Decidable (Below _ _))

/-- Successful changes of directory, to an absolute path and from there along
relative ones. `dir` is all of these paths, one behind the other, and `ends`
holds of it after each change. -/
inductive ChangedTo (ends : CString → Prop) (start : WorkingDir) : CString → WorkingDir → Prop where
  | absolute (op : ChdirOp) {dir : CString} {dirs : WorkingDir} (given : op.path = some dir)
      (rooted : isAbsolute dir.chars = true) (done : chdirStep op start = (some .done, dirs))
      (ended : ends dir) : ChangedTo ends start dir dirs
  | relative (op : ChdirOp) {dir path : CString} {dirs next : WorkingDir}
      (before : ChangedTo ends start dir dirs) (given : op.path = some path)
      (unrooted : isAbsolute path.chars = false) (done : chdirStep op dirs = (some .done, next))
      (ended : ends (dir.slash path)) : ChangedTo ends start (dir.slash path) next

/-- The current directory after a change to `dir`: one of the host, unless it
is written as one of the memfs. -/
def Cwd.at (dir : CString) : Cwd :=
  some (if isTebakoPath dir then dir.normal.withSeparator.normal else .empty)

section Composition

variable {start dirs next : WorkingDir} {dir path : CString} {op : ChdirOp}

theorem isAbsolute_slash (absolute : isAbsolute dir.chars = true) (path : CString) :
    isAbsolute (dir.slash path).chars = true :=
  isAbsolute_text_append absolute _

theorem isTebakoPath_slash (absolute : isAbsolute dir.chars = true) (path : CString) :
    isTebakoPath (dir.slash path) = isTebakoPath dir :=
  isTebakoPath_of_continued absolute rfl

/-- The directory was normalised with a separator at its end, the path was
normalised on its own, and both are once more together. -/
theorem toTebakoPath_at (absolute : isAbsolute dir.chars = true)
    (relative : isAbsolute path.chars = false) :
    toTebakoPath (.at dir) path = toTebakoPath (.at dir) (dir.slash path) := by
  rw [toTebakoPath_of_absolute (isAbsolute_slash absolute path), isTebakoPath_slash absolute]
  have unknown := isTebakoPath_of_relative relative
  cases known : isTebakoPath dir with
  | false => simp [toTebakoPath, Cwd.at, Cwd.isIn, known, unknown]
  | true =>
      have stored : isAbsolute (lexicallyNormal (lexicallyNormal dir.chars ++ ['/'])) = true := by
        rw [isAbsolute_lexicallyNormal]
        exact isAbsolute_text_append (by rw [isAbsolute_lexicallyNormal, absolute]) _
      have inside : (Cwd.at dir).isIn = true := by
        have nonempty := ne_nil_of_absolute stored
        simp [Cwd.at, Cwd.isIn, known, CString.withSeparator, nonempty]
      have same : lexicallyNormal (append (lexicallyNormal (lexicallyNormal dir.chars ++ ['/']))
          (lexicallyNormal path.chars)) = lexicallyNormal (dir.chars ++ '/' :: path.chars) := by
        rw [lexicallyNormal_append_lexicallyNormal stored relative,
          lexicallyNormal_append_stored absolute relative]
      rw [toTebakoPath, if_pos ⟨inside, by simp [relative]⟩]
      simp only [Cwd.at, known, ↓reduceIte, Option.map_some, expandPath, CString.normal_chars,
        CString.join_chars, CString.withSeparator, same, CString.slash]

/-- One successful change, along a path that means `dir`. -/
theorem cwd_at_of_done (held : dirs.cwd.isSome) (given : op.path = some path)
    (done : chdirStep op dirs = (some .done, next)) (rooted : isAbsolute dir.chars = true)
    (means : toTebakoPath dirs.cwd path = toTebakoPath dirs.cwd dir) (fits : FitsBuffer dir) :
    next.cwd = .at dir := by
  obtain ⟨old, cwd⟩ := Option.isSome_iff_exists.mp held
  rw [toTebakoPath_of_absolute rooted, tebakoPathAssign_eq_iff.mpr fits] at means
  have changes := chdirStep_changes op dirs
  rw [done] at changes
  cases changes with
  | refused other => exact absurd rfl other
  | inside changed known _ _ =>
      obtain rfl := Option.some.inj (given.symm.trans changed)
      rw [means] at known
      cases inside : isTebakoPath dir with
      | false => simp [inside] at known
      | true =>
          obtain rfl : dir.normal = _ := by simpa [inside] using known
          simp [cwd, Cwd.set, Cwd.at, inside]
  | host changed unknown _ =>
      obtain rfl := Option.some.inj (given.symm.trans changed)
      rw [means] at unknown
      cases inside : isTebakoPath dir with
      | false => simp [cwd, Cwd.set, Cwd.at, inside]
      | true => simp [inside] at unknown

theorem ChangedTo.cwd_at (held : start.cwd.isSome) (changed : ChangedTo FitsBuffer start dir dirs) :
    isAbsolute dir.chars = true ∧ dirs.cwd = .at dir := by
  induction changed with
  | absolute op given rooted done fits => exact ⟨rooted, cwd_at_of_done held given done rooted rfl fits⟩
  | @relative op dir path dirs next _ given unrooted done fits ih =>
      obtain ⟨rooted, cwd⟩ := ih
      have means := toTebakoPath_at rooted unrooted
      rw [← cwd] at means
      have there : dirs.cwd.isSome := by rw [cwd]; rfl
      have full := isAbsolute_slash rooted path
      exact ⟨full, cwd_at_of_done there given done full means fits⟩

theorem chdirStep_isSome (held : dirs.cwd.isSome) (op : ChdirOp) : (chdirStep op dirs).2.cwd.isSome := by
  have changes := chdirStep_changes op dirs
  generalize chdirStep op dirs = result at changes ⊢
  cases changes with
  | refused other => exact held
  | inside given known found directory => simpa [Cwd.set] using held
  | host given unknown moved => simpa [Cwd.set] using held

end Composition

/-- After changes of directory that have succeeded, from the mounting of a root image
on, a relative path is what it is written out in full behind all of them, as long as
every directory on the way fits a path buffer. -/
theorem chdir_composes (hostCwd : CString) (start dirs : WorkingDir) (dir path : CString)
    (reached : Machine.Reaches chdirStep (fun _ _ => True) ⟨.init, hostCwd⟩ start)
    (changed : ChangedTo FitsBuffer start dir dirs) (relative : isAbsolute path.chars = false) :
    toTebakoPath dirs.cwd path = toTebakoPath dirs.cwd (dir.slash path) := by
  have held : start.cwd.isSome := by
    apply @Machine.Reaches.invariant _ _ _ _ _ _ _ (fun dirs => dirs.cwd.isSome) reached
    · rfl
    · exact fun dirs op holds _ => chdirStep_isSome holds op
  obtain ⟨rooted, cwd⟩ := changed.cwd_at held
  rw [cwd]
  exact toTebakoPath_at rooted relative

/-- A root image with a directory `d`. -/
def folderChange (path : CString) : ChdirOp where
  w := .ofRoot (.ofEntries [⟨0, cStr ['d'], 0o040755, .empty⟩]) ∅ fun _ => .error .ENOENT
  hostChdir _ := .error .ENOENT
  fuel := 9
  path := some path

def inFolder : WorkingDir := ⟨some (belowMountPoint ['d', '/']), homePath⟩

def inRoot : WorkingDir := ⟨some (belowMountPoint []), homePath⟩

theorem folderChange_up : chdirStep (folderChange (cStr ['.', '.'])) inFolder = (some .done, inRoot) := by
  rfl

theorem chdir_to_folder_and_back :
    toTebakoPath inRoot.cwd (cStr ['x']) = toTebakoPath inRoot.cwd
      (((belowMountPoint ['.', '/', 'd']).slash (cStr ['.', '.'])).slash (cStr ['x'])) := by
  refine chdir_composes homePath ⟨.init, homePath⟩ inRoot _ _ .start ?_ (by decide)
  have first : ChangedTo FitsBuffer ⟨.init, homePath⟩ (belowMountPoint ['.', '/', 'd']) inFolder :=
    .absolute (folderChange (belowMountPoint ['.', '/', 'd'])) rfl (by decide) rfl (by decide +kernel)
  exact .relative (folderChange (cStr ['.', '.'])) first rfl (by decide) folderChange_up (by decide +kernel)

/-! ## A directory on the way that does not fit -/

section Beyond

/-- As long as a path buffer with `/..` and the path of `d` around it. -/
def longName : Str := List.replicate 4073 'a'

theorem mem_longName {char : Char} (member : char ∈ longName) : char = 'a' :=
  List.eq_of_mem_replicate member

theorem longName_length : longName.length = 4073 := List.length_replicate

theorem longName_plain : Plain longName := by
  have start : longName.head? = some 'a' := rfl
  constructor
  · intro empty
    rw [empty] at start
    cases start
  · intro same
    rw [same] at start
    cases start
  · intro same
    rw [same] at start
    cases start

theorem longName_clean : '/' ∉ longName := fun member => absurd (mem_longName member) (by decide)

/-- Below the folder of this name, a path buffer ends within the last name. -/
def longFolder : Str := tebakoMountPoint ++ '/' :: 'd' :: '/' :: longName

theorem longFolder_noNul : Char.ofNat 0 ∉ longFolder := by
  intro member
  rcases List.mem_append.mp member with inMountPoint | later
  · exact absurd inMountPoint (by decide)
  · simp only [List.mem_cons] at later
    rcases later with separator | folder | separator | inName
    · exact absurd separator (by decide)
    · exact absurd folder (by decide)
    · exact absurd separator (by decide)
    · exact absurd (mem_longName inName) (by decide)

def beyond : CString where
  chars := longFolder ++ '/' :: ['.', '.', 'b']
  noNul member := by
    rcases List.mem_append.mp member with inFolder | later
    · exact longFolder_noNul inFolder
    · exact absurd later (by decide)

def beyondCut : CString where
  chars := longFolder ++ '/' :: dotDot
  noNul member := by
    rcases List.mem_append.mp member with inFolder | later
    · exact longFolder_noNul inFolder
    · exact absurd later (by decide)

def longOutline (last : List Path) (slash : Bool) : Outline :=
  ⟨true, tebakoMountPointName :: ['d'] :: longName :: last, slash⟩

theorem longFolder_normal {last : List Path} {slash : Bool} (plain : ∀ name ∈ last, Plain name ∧ '/' ∉ name) :
    lexicallyNormal (longOutline last slash).text = (longOutline last slash).text := by
  have all : ∀ name ∈ (longOutline last slash).names, Plain name ∧ '/' ∉ name := by
    intro name member
    simp only [longOutline, List.mem_cons] at member
    rcases member with rfl | rfl | rfl | later
    · decide
    · decide
    · exact ⟨longName_plain, longName_clean⟩
    · exact plain name later
  apply lexicallyNormal_rooted _ rfl (by simp [longOutline])
  exact {
    nonempty := fun name member => (all name member).1.nonempty
    noSeparator := fun name member => (all name member).2
    noDot := fun name member => (all name member).1.notDot
    rootedPlain := fun _ name member => (all name member).1.notDotDot }

theorem beyond_below :
    beyond.chars = tebakoMountPoint ++ '/' :: ('d' :: '/' :: longName ++ ['/', '.', '.', 'b']) := by
  simp [beyond, longFolder]

theorem beyond_known : isTebakoPath beyond = true :=
  isTebakoPath_iff.mpr ⟨_, beyond_below⟩

theorem beyond_normal : beyond.normal = beyond := by
  have text : beyond.chars = (longOutline [['.', '.', 'b']] false).text := by
    simp [beyond, longFolder, longOutline, Outline.text, Outline.segments, List.intercalate_cons_cons,
      tebakoMountPoint]
  apply CString.ext
  rw [CString.normal_chars, text]
  exact longFolder_normal (by decide)

theorem beyond_cut : tebakoPathAssign beyond.chars = beyondCut := by
  apply CString.ext
  have split : beyond.chars = beyondCut.chars ++ ['b'] := by simp [beyond, beyondCut, dotDot]
  have length : beyondCut.chars.length = tebakoPathLength := by
    simp [beyondCut, longFolder, longName_length, tebakoMountPoint_length, tebakoMountPointLength,
      tebakoPathLength, dotDot]
  simp only [tebakoPathAssign, cStr_chars]
  rw [split, ← length, List.take_left]

theorem beyondCut_outline :
    outline beyondCut.chars = outline (tebakoMountPoint ++ ['/', 'd', '/']) := by
  have split : beyondCut.chars =
      (tebakoMountPoint ++ ['/', 'd']) ++ '/' :: (longName ++ '/' :: dotDot) := by
    simp [beyondCut, longFolder]
  rw [split, outline_into_and_back longName_plain longName_clean, List.append_assoc]
  rfl

/-- What is left of the path in the buffer names `d` itself. -/
theorem beyondCut_normal : beyondCut.normal = belowMountPoint ['d', '/'] := by
  apply CString.ext
  have here := lexicallyNormal_eq_of_outline (by simp [beyondCut]) (by simp) beyondCut_outline
  rw [CString.normal_chars, here]
  decide

theorem beyondCut_set : beyondCut.withSeparator.normal = belowMountPoint ['d', '/'] := by
  apply CString.ext
  have here : outline (beyondCut.chars ++ ['/']) = outline (tebakoMountPoint ++ ['/', 'd', '/']) := by
    rw [outline_separator (by simp [beyondCut]), beyondCut_outline]
    decide
  have same := lexicallyNormal_eq_of_outline (by simp) (by simp) here
  rw [CString.normal_chars, CString.withSeparator_chars, same]
  decide

theorem chdir_beyond : chdirStep (folderChange beyond) ⟨.init, homePath⟩ = (some .done, inFolder) := by
  have cut : isTebakoPath beyondCut = true := isTebakoPath_iff.mpr ⟨_, List.append_assoc _ _ _⟩
  have path : toTebakoPath .init beyond = some beyondCut := by
    rw [toTebakoPath_of_isTebakoPath beyond_known, beyond_normal, beyond_cut]
  have again : toTebakoPath .init beyondCut = toTebakoPath .init (belowMountPoint ['d', '/']) := by
    rw [toTebakoPath_of_isTebakoPath cut, beyondCut_normal]
    rfl
  have stat : tebakoStat { (folderChange beyond).w with cwd := .init } 9 beyondCut =
      some (.ok (.inode ⟨1, 0o040755, 0⟩)) := by
    simp only [tebakoStat, tebakoStatVia, again]
    rfl
  have directory : (⟨1, 0o040755, 0⟩ : FileStat).isDir = true := by decide
  have fuel : (folderChange beyond).fuel = 9 := rfl
  have given : (folderChange beyond).path = some beyond := rfl
  have set : Cwd.set .init (some beyondCut) = some (belowMountPoint ['d', '/']) := by
    rw [← beyondCut_set]
    rfl
  simp only [chdirStep, tebakoChdir, given, path, fuel, stat, Option.map_some, directory, ↓reduceIte,
    set, inFolder]

theorem longFolder_up {path : CString} (outlined : outline path.chars = outline (longFolder ++ ['/'])) :
    path.normal.chars = longFolder ++ ['/'] := by
  have text : longFolder ++ ['/'] = (longOutline [] true).text := by
    simp [longFolder, longOutline, Outline.text, Outline.segments, List.intercalate_cons_cons,
      tebakoMountPoint, longName_plain.notDotDot]
  have rooted : isAbsolute path.chars = true := congrArg Outline.rooted outlined
  rw [CString.normal_chars,
    lexicallyNormal_eq_of_outline (ne_nil_of_absolute rooted) (by simp) outlined, text]
  exact longFolder_normal (by simp)

theorem longFolder_up_inside {path : CString}
    (outlined : outline path.chars = outline (longFolder ++ ['/'])) : EndsInside path ∧ FitsBuffer path := by
  have normal := longFolder_up outlined
  constructor
  · rw [EndsInside, normal, longFolder, List.append_assoc]
    exact below_append _ _
  · rw [FitsBuffer, normal]
    simp [longFolder, longName_length, tebakoMountPoint_length, tebakoMountPointLength, tebakoPathLength]

theorem beyond_up_outline : outline (beyond.slash (cStr dotDot)).chars = outline (longFolder ++ ['/']) := by
  have split : (beyond.slash (cStr dotDot)).chars =
      longFolder ++ '/' :: (['.', '.', 'b'] ++ '/' :: dotDot) := by
    simp [beyond, cStr, dotDot]
  rw [split]
  exact outline_into_and_back (by decide) (by decide) longFolder

theorem beyond_up_dot_outline :
    outline ((beyond.slash (cStr dotDot)).slash (cStr dot)).chars = outline (longFolder ++ ['/']) := by
  have present : (beyond.slash (cStr dotDot)).chars ≠ [] := by simp [CString.slash]
  have split : ((beyond.slash (cStr dotDot)).slash (cStr dot)).chars =
      (beyond.slash (cStr dotDot)).chars ++ '/' :: dot := by
    rw [CString.slash_chars]
    rfl
  rw [split, outline_append_dot, outline_separator present, beyond_up_outline, outline_separator (by simp [longFolder])]

end Beyond

/-- Where the path has a longer name, the buffer ends in `..`: the first change leads
to `d`, and the second one to the directory above it. -/
theorem chdir_beyond_buffer : ¬ ∀ hostCwd start dirs dir path,
    Machine.Reaches chdirStep (fun _ _ => True) ⟨.init, hostCwd⟩ start →
    ChangedTo EndsInside start dir dirs → FitsBuffer dir → isAbsolute path.chars = false →
    EndsInside (dir.slash path) → FitsBuffer (dir.slash path) →
      toTebakoPath dirs.cwd path = toTebakoPath dirs.cwd (dir.slash path) := by
  intro always
  have first : ChangedTo EndsInside ⟨.init, homePath⟩ beyond inFolder := by
    apply ChangedTo.absolute (folderChange beyond) rfl rfl chdir_beyond
    rw [EndsInside, beyond_normal, beyond_below]
    exact below_append _ _
  have up := longFolder_up_inside beyond_up_outline
  have here := longFolder_up_inside beyond_up_dot_outline
  have second : ChangedTo EndsInside ⟨.init, homePath⟩ (beyond.slash (cStr dotDot)) inRoot :=
    .relative (folderChange (cStr dotDot)) first rfl (by decide) folderChange_up up.1
  have same := always homePath ⟨.init, homePath⟩ inRoot _ (cStr dot) .start second up.2 (by decide) here.1 here.2
  have rooted : isAbsolute beyond.chars = true := rfl
  have full : isTebakoPath ((beyond.slash (cStr dotDot)).slash (cStr dot)) = true := by
    rw [isTebakoPath_slash (isAbsolute_slash rooted _), isTebakoPath_slash rooted, beyond_known]
  rw [toTebakoPath_of_isTebakoPath full, tebakoPathAssign_eq_iff.mpr here.2] at same
  have root : toTebakoPath inRoot.cwd (cStr dot) = some (belowMountPoint []) := by decide +kernel
  have texts := congrArg CString.chars (Option.some.inj (root.symm.trans same))
  rw [longFolder_up beyond_up_dot_outline] at texts
  have lengths := congrArg List.length texts
  have short : (belowMountPoint []).chars.length = 18 := by decide
  simp [short, longFolder, longName_length, tebakoMountPoint_length, tebakoMountPointLength] at lengths

end Tebako
