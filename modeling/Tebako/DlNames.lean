import Tebako.Data.Confinement
import Tebako.DlCtl
import Tebako.JoinedPath

namespace Tebako

open Data Data.LexicalPath Data.OrderedMap

/-! Where the copies of libraries are made, and which of them share a file.

The name of a copy is what a path has behind its first characters, as many as
the mount point has and one more, whatever these characters are. -/

def hexDigits : Str := ['0', '1', '2', '3', '4', '5', '6', '7', '8', '9', 'a', 'b', 'c', 'd', 'e', 'f']

/-- What `create_temporary_directory` makes: a directory with a random name
below that for the temporary files of the host. -/
def PrivateDirectory (dlTmpdir : CString) : Prop :=
  ∃ tmpDir name : CString, dlTmpdir = tmpDir.join name ∧ isAbsolute tmpDir.chars = true ∧
    name.chars ≠ [] ∧ ∀ digit ∈ name.chars, digit ∈ hexDigits

/-- What `create_directories` makes of the directory of a copy, by the names that
lead there, where there is nothing yet. -/
def directoriesMade (mapped : CString) : List (List Path) := (names (parentPath mapped.chars)).inits

/-- All other names are those of directories. -/
def NamesFile (mapped : CString) : Prop := Plain (lastSegment mapped.chars)

/-- The host opens no directory for writing. -/
def HostAnswers.OpensFiles (host : HostAnswers) (mapped : CString) : Prop :=
  host.opensOutput = true → NamesFile mapped

/-- A call with this path. -/
def DlState.CallsWith (env : DlEnv) (s : DlState) (fuel : Nat) (host : HostAnswers) (path : CString)
    (after : DlState) : Prop :=
  ∃ answer, s.tebakoDlopen env fuel host (some path) = some (answer, after) ∨
    s.tebakoDlmap2file env fuel host (some path) = some (answer, after)

/-- What a call makes on the host is strictly below the directory for the copies,
as far as it is not there before. -/
structure Contained (cwd : Cwd) (path : CString) : Prop where
  directories : ∀ dlTmpdir p way, PrivateDirectory dlTmpdir → toTebakoPath cwd path = some p →
    way ∈ directoriesMade (mapName dlTmpdir p) →
    OnTheWay dlTmpdir.chars way ∨ StrictlyBelow dlTmpdir.chars way
  file : ∀ dlTmpdir p, PrivateDirectory dlTmpdir → toTebakoPath cwd path = some p →
    NamesFile (mapName dlTmpdir p) → StrictlyBelow dlTmpdir.chars (names (mapName dlTmpdir p).chars)
  written : ∀ (env : DlEnv) (s : DlState) (fuel : Nat) (host : HostAnswers) (after : DlState) (key : Str),
    PrivateDirectory env.dlTmpdir → s.globals.cwd = cwd →
    (∀ p, toTebakoPath cwd path = some p → host.OpensFiles (mapName env.dlTmpdir p)) →
    s.CallsWith env fuel host path after → after.disk[key]? ≠ s.disk[key]? →
    StrictlyBelow env.dlTmpdir.chars (names key)

/-- Two paths that are not the same, once they are in normal form, have copies of
their own. -/
def Separate (cwd twin : Cwd) (path other : CString) : Prop :=
  ∀ dlTmpdir named second p q, PrivateDirectory dlTmpdir → namedPath cwd path = some named →
    namedPath twin other = some second → toTebakoPath cwd path = some p → toTebakoPath twin other = some q →
    named ≠ second → NamesFile (mapName dlTmpdir p) → NamesFile (mapName dlTmpdir q) →
    (mapName dlTmpdir p).onDisk ≠ (mapName dlTmpdir q).onDisk

/-- What is left of a path without its first characters. -/
def remainder (p : CString) : Path := p.chars.drop (tebakoMountPointLength + 1)

def KeepsInside (cwd : Cwd) (path : CString) : Prop :=
  ∀ p, toTebakoPath cwd path = some p → staysInside (remainder p) = true

def KeepsApart (cwd twin : Cwd) (path other : CString) : Prop :=
  ∀ named second p q, namedPath cwd path = some named → namedPath twin other = some second →
    toTebakoPath cwd path = some p → toTebakoPath twin other = some q → named ≠ second →
    Plain (lastSegment (remainder p)) → Plain (lastSegment (remainder q)) →
    collapse false (names (remainder p)) ≠ collapse false (names (remainder q))

variable {env : DlEnv} {s after : DlState} {host : HostAnswers} {fuel : Nat} {cwd twin : Cwd}
variable {dlTmpdir path other name p q : CString} {way : List Path}

/-! ## Names -/

theorem mapName_chars (dlTmpdir p : CString) :
    (mapName dlTmpdir p).chars = append dlTmpdir.chars (remainder p) := by
  unfold mapName remainder
  rw [CString.join_chars]
  split
  · rename_i ended
    have short : p.chars.length ≤ tebakoMountPointLength := by
      by_contra long
      rw [List.getD_eq_getElem?_getD, List.getElem?_eq_getElem (by omega), Option.getD_some] at ended
      exact p.noNul (ended ▸ List.getElem_mem _)
    simp only [CString.drop]
    rw [List.drop_of_length_le short, List.drop_of_length_le (by omega)]
  · rfl

theorem lastSegment_mapName (dlTmpdir p : CString) :
    lastSegment (mapName dlTmpdir p).chars = lastSegment (remainder p) := by
  rw [mapName_chars]
  cases absolute : isAbsolute (remainder p) with
  | true => rw [append_of_absolute absolute]
  | false => exact lastSegment_append absolute

theorem namesFile_mapName : NamesFile (mapName dlTmpdir p) ↔ Plain (lastSegment (remainder p)) := by
  rw [NamesFile, lastSegment_mapName]

theorem isAbsolute_mapName (absolute : isAbsolute dlTmpdir.chars = true) :
    isAbsolute (mapName dlTmpdir p).chars = true := by
  rw [mapName_chars]
  cases rooted : isAbsolute (remainder p) with
  | true => rwa [append_of_absolute rooted]
  | false => rwa [isAbsolute_append rooted]

theorem plain_of_hexDigits {name : Path} (named : name ≠ []) (digits : ∀ digit ∈ name, digit ∈ hexDigits) :
    Plain name ∧ '/' ∉ name := by
  have dotless : '.' ∉ name := fun member => absurd (digits _ member) (by decide)
  refine ⟨⟨named, fun same => dotless ?_, fun same => dotless ?_⟩, fun member => absurd (digits _ member) (by decide)⟩
  · simp [same, dot]
  · simp [same, dotDot]

theorem PrivateDirectory.absolute (made : PrivateDirectory dlTmpdir) : isAbsolute dlTmpdir.chars = true := by
  obtain ⟨tmpDir, name, rfl, absolute, named, digits⟩ := made
  rw [CString.join_chars, isAbsolute_append (isAbsolute_of_clean (plain_of_hexDigits named digits).2), absolute]

theorem names_onDisk (made : PrivateDirectory dlTmpdir) :
    names (mapName dlTmpdir p).onDisk = collapse true (names (mapName dlTmpdir p).chars) :=
  names_lexicallyNormal_of_absolute (isAbsolute_mapName made.absolute)

/-- The directory, where the host has its temporary files in the root directory. -/
theorem privateDirectory_of_digits {own : Path} (named : own ≠ []) (digits : ∀ digit ∈ own, digit ∈ hexDigits) :
    PrivateDirectory (cStr ('/' :: own)) ∧ (cStr ('/' :: own)).chars = '/' :: own := by
  have clean := (plain_of_hexDigits named digits).2
  have text : (cStr own).chars = own := cStr_chars_of_noNul fun nul => absurd (digits _ nul) (by decide)
  have rooted : (cStr ('/' :: own)).chars = '/' :: own := by
    refine cStr_chars_of_noNul fun nul => ?_
    rcases List.mem_cons.mp nul with separator | digit
    · exact absurd separator (by decide)
    · exact absurd (digits _ digit) (by decide)
  refine ⟨⟨cStr ['/'], cStr own, CString.ext ?_, by decide, by rwa [text], by rwa [text]⟩, rooted⟩
  have joined : append ['/'] own = '/' :: own := by
    rw [append, isAbsolute_of_clean clean, if_neg Bool.false_ne_true, if_pos (by decide)]
    rfl
  rw [CString.join_chars, text, rooted]
  exact joined.symm

/-- A directory in the root directory, with another name than this one. -/
theorem exists_privateDirectory (name : Path) : ∃ own, own ≠ name ∧ Plain own ∧ '/' ∉ own ∧
    ∃ dlTmpdir, PrivateDirectory dlTmpdir ∧ dlTmpdir.chars = '/' :: own := by
  have found : ∀ digit ∈ hexDigits, [digit] ≠ name → ∃ own, own ≠ name ∧ Plain own ∧ '/' ∉ own ∧
      ∃ dlTmpdir, PrivateDirectory dlTmpdir ∧ dlTmpdir.chars = '/' :: own := by
    intro digit known other
    have digits : ∀ char ∈ [digit], char ∈ hexDigits := List.forall_mem_singleton.mpr known
    obtain ⟨plain, clean⟩ := plain_of_hexDigits (List.cons_ne_nil _ _) digits
    exact ⟨[digit], other, plain, clean, _, privateDirectory_of_digits (List.cons_ne_nil _ _) digits⟩
  by_cases zero : name = ['0']
  · exact found '1' (by decide) (by simp [zero])
  · exact found '0' (by decide) (Ne.symm zero)

/-! ## Containment -/

theorem below_of_stays (stays : staysInside (remainder p) = true) (made : way ∈ directoriesMade (mapName dlTmpdir p)) :
    OnTheWay dlTmpdir.chars way ∨ StrictlyBelow dlTmpdir.chars way := by
  have along := ((List.mem_inits _ _).mp made).trans (names_parentPath_begin _)
  rw [mapName_chars] at along
  exact staysInside_way stays along

/-- The file of a copy is where the rest of the path leads to. -/
theorem collapse_mapName (stays : staysInside (remainder p) = true) (file : NamesFile (mapName dlTmpdir p)) :
    collapse false (names (remainder p)) ≠ [] ∧ collapse true (names (mapName dlTmpdir p).chars) =
      collapse true (names dlTmpdir.chars) ++ collapse false (names (remainder p)) := by
  rw [mapName_chars]
  exact (collapse_append_inside stays (namesFile_mapName.mp file)).2

theorem strictlyBelow_of_stays (stays : staysInside (remainder p) = true) (file : NamesFile (mapName dlTmpdir p)) :
    StrictlyBelow dlTmpdir.chars (names (mapName dlTmpdir p).chars) :=
  ⟨_, collapse_mapName stays file⟩

/-- Some directory for copies does not hold what is made for a path whose rest
does not stay inside. -/
theorem exists_not_contained (leaves : staysInside (remainder p) = false) :
    ∃ dlTmpdir, PrivateDirectory dlTmpdir ∧
      ((∃ way ∈ directoriesMade (mapName dlTmpdir p), ¬ (OnTheWay dlTmpdir.chars way ∨ StrictlyBelow dlTmpdir.chars way)) ∨
        (NamesFile (mapName dlTmpdir p) ∧ ¬ StrictlyBelow dlTmpdir.chars (names (mapName dlTmpdir p).chars))) := by
  obtain ⟨front, name, plain, beside⟩ := exists_beside leaves
  obtain ⟨own, other, ownPlain, clean, dlTmpdir, made, spelled⟩ := exists_privateDirectory name
  obtain ⟨before, way_of, leads⟩ := beside own ownPlain clean
  have outside := not_below_of_beside ownPlain clean other leads
  rw [← spelled] at way_of outside
  rw [← mapName_chars] at way_of
  refine ⟨dlTmpdir, made, ?_⟩
  rcases prefix_names way_of with parent | ⟨split, whole⟩
  · exact .inl ⟨_, (List.mem_inits _ _).mpr parent, outside⟩
  · right
    have last : name = lastSegment (mapName dlTmpdir p).chars :=
      List.singleton_inj.mp (List.append_inj' split rfl).2
    have file : NamesFile (mapName dlTmpdir p) := by
      rw [NamesFile, ← last]
      exact plain
    rw [← whole]
    exact ⟨file, fun below => outside (.inr below)⟩

/-- A call changes nothing on the host but the file of the copy, and only if the
host has opened it. -/
theorem map2file_disk {key : Str} (done : s.map2file env fuel host path = some (name, after))
    (changed : after.disk[key]? ≠ s.disk[key]?) :
    key = (mapName env.dlTmpdir path).onDisk ∧ host.opensOutput = true := by
  cases cached : s.dltable[path.chars]? with
  | some name =>
      rw [map2file_of_cached cached] at done
      cases done
      exact absurd rfl changed
  | none =>
      simp only [DlState.map2file, cached] at done
      split at done
      · cases done
        exact absurd rfl changed
      · split at done
        · cases done
        · cases done
          exact absurd rfl changed
        · simp only [DlState.extract] at done
          split at done
          · cases done
            exact absurd rfl changed
          · split at done
            · cases done
              exact absurd rfl changed
            · rename_i opens
              refine ⟨?_, Bool.eq_true_of_not_eq_false opens⟩
              obtain ⟨c, _, same⟩ := Option.map_eq_some_iff.mp done
              obtain rfl := congrArg Prod.snd same
              by_contra other
              refine changed ?_
              simp only [DlState.finish]
              split
              · exact getElem?_insert_ne other
              · exact getElem?_erase_ne other

theorem callsWith_disk {key : Str} (called : s.CallsWith env fuel host path after)
    (changed : after.disk[key]? ≠ s.disk[key]?) : ∃ p, toTebakoPath s.globals.cwd path = some p ∧
      key = (mapName env.dlTmpdir p).onDisk ∧ host.opensOutput = true := by
  cases known : toTebakoPath s.globals.cwd path with
  | none =>
      obtain ⟨answer, opened | mapped⟩ := called
      · simp only [DlState.tebakoDlopen, known] at opened
        cases opened
        exact absurd rfl changed
      · simp only [DlState.tebakoDlmap2file, known] at mapped
        cases mapped
        exact absurd rfl changed
  | some p =>
      refine ⟨p, rfl, ?_⟩
      obtain ⟨answer, opened | mapped⟩ := called
      · simp only [DlState.tebakoDlopen, known] at opened
        obtain ⟨result, done, same⟩ := Option.map_eq_some_iff.mp opened
        obtain rfl := congrArg Prod.snd same
        exact map2file_disk done changed
      · simp only [DlState.tebakoDlmap2file, known] at mapped
        obtain ⟨result, done, same⟩ := Option.map_eq_some_iff.mp mapped
        obtain rfl := congrArg Prod.snd same
        exact map2file_disk done changed

theorem contained_iff : Contained cwd path ↔ KeepsInside cwd path := by
  constructor
  · intro contained p known
    by_contra leaves
    obtain ⟨dlTmpdir, made, ⟨way, way_of, outside⟩ | ⟨file, outside⟩⟩ :=
      exists_not_contained (eq_false_of_ne_true leaves)
    · exact outside (contained.directories dlTmpdir p way made known way_of)
    · exact outside (contained.file dlTmpdir p made known file)
  · intro keeps
    refine ⟨fun dlTmpdir p way _ known way_of => below_of_stays (keeps p known) way_of,
      fun dlTmpdir p _ known file => strictlyBelow_of_stays (keeps p known) file, ?_⟩
    intro env s fuel host after key made same opens called changed
    subst same
    obtain ⟨p, known, rfl, opened⟩ := callsWith_disk called changed
    obtain ⟨rest, present, leads⟩ := strictlyBelow_of_stays (keeps p known) (opens p known opened)
    exact ⟨rest, present, by rw [names_onDisk made, collapse_collapse, leads]⟩

/-! ## Files of their own -/

theorem outline_mapName (made : PrivateDirectory dlTmpdir) (file : NamesFile (mapName dlTmpdir p)) :
    outline (mapName dlTmpdir p).chars = ⟨true, collapse true (names (mapName dlTmpdir p).chars), false⟩ := by
  have rooted := @isAbsolute_mapName dlTmpdir p made.absolute
  have named : lastSegment (mapName dlTmpdir p).chars ∉ [[], dot, dotDot] := by
    simpa only [List.mem_cons, List.not_mem_nil, or_false] using plain_iff.mp file
  simp only [outline, rooted, named, decide_false]

theorem onDisk_eq_iff (made : PrivateDirectory dlTmpdir) (stays : staysInside (remainder p) = true)
    (also : staysInside (remainder q) = true) (file : NamesFile (mapName dlTmpdir p))
    (second : NamesFile (mapName dlTmpdir q)) :
    (mapName dlTmpdir p).onDisk = (mapName dlTmpdir q).onDisk ↔
      collapse false (names (remainder p)) = collapse false (names (remainder q)) := by
  have left := (collapse_mapName stays file).2
  have right := (collapse_mapName also second).2
  constructor
  · intro same
    have listed := congrArg names same
    rw [names_onDisk made, names_onDisk made, left, right] at listed
    exact List.append_cancel_left listed
  · intro same
    rw [← same] at right
    refine lexicallyNormal_eq_of_outline (ne_nil_of_absolute (isAbsolute_mapName made.absolute)) (ne_nil_of_absolute (isAbsolute_mapName made.absolute)) ?_
    rw [outline_mapName made file, outline_mapName made second, left, right]

theorem separate_iff (keeps : KeepsInside cwd path) (also : KeepsInside twin other) :
    Separate cwd twin path other ↔ KeepsApart cwd twin path other := by
  constructor
  · intro separate named second p q names others known found differ file last
    obtain ⟨_, _, _, _, dlTmpdir, made, _⟩ := exists_privateDirectory []
    have left := (@namesFile_mapName dlTmpdir p).mpr file
    have right := (@namesFile_mapName dlTmpdir q).mpr last
    have apart := separate dlTmpdir named second p q made names others known found differ left right
    exact fun same => apart ((onDisk_eq_iff made (keeps p known) (also q found) left right).mpr same)
  · intro apart dlTmpdir named second p q made names others known found differ file last same
    refine apart named second p q names others known found differ (namesFile_mapName.mp file)
      (namesFile_mapName.mp last) ?_
    exact (onDisk_eq_iff made (keeps p known) (also q found) file last).mp same

/-! ## Paths of the memfs -/

/-- What a path of the memfs has behind the mount point are plain names. -/
theorem remainder_of_inside (inside : NamedInMemfs cwd path name) :
    isAbsolute (remainder name) = false ∧ (∀ part ∈ names (remainder name), Plain part) ∧
      (Plain (lastSegment (remainder name)) →
        outline name.chars = ⟨true, tebakoMountPointName :: names (remainder name), false⟩) := by
  have absolute := isAbsolute_of_below inside.below
  have normal : lexicallyNormal name.chars = name.chars := congrArg CString.chars (normal_of_namedPath inside.names)
  obtain ⟨rest, outlined⟩ := outline_below absolute (normal.symm ▸ inside.below)
  have plain : ∀ part ∈ (outline name.chars).names, Plain part := by
    intro part member
    rw [outline, absolute] at member
    exact plain_of_mem_collapse member
  rw [outlined] at plain
  have parts : ∀ part ∈ rest, Plain part := fun part member => plain part (List.mem_cons_of_mem _ member)
  rcases segments_below mountPoint_nonempty mountPoint_clean absolute outlined with
    ⟨same, _, _⟩ | ⟨below, same, split⟩
  · have empty : remainder name = [] := by
      rw [remainder, ← normal, same]
      rfl
    rw [empty]
    exact ⟨rfl, by simp, fun last => absurd rfl last.nonempty⟩
  · have left : remainder name = below := by
      rw [remainder, ← normal, same]
      rfl
    have listed : names below = rest := by
      have whole : rest.filter (· ≠ []) = rest :=
        List.filter_eq_self.mpr fun part member => by simpa using (parts part member).nonempty
      rw [names, split, List.filter_append, whole]
      split <;> simp
    rw [left, listed]
    refine ⟨isAbsolute_of_segments (fun part member => (parts part member).nonempty) split, parts, fun last => ?_⟩
    have ended : (outline name.chars).slash = false := by
      by_contra slash
      refine last.nonempty ?_
      rw [lastSegment, split, if_pos (eq_true_of_ne_false slash)]
      simp
    rw [← outlined, ← ended, ← absolute]
    rfl

/-- Copies of what is in the memfs are made below the directory for them. -/
theorem keepsInside_of_inside (inside : NamedInMemfs cwd path name) : KeepsInside cwd path := by
  intro p known
  obtain rfl := Option.some.inj (inside.known.symm.trans known)
  obtain ⟨relative, plain, _⟩ := remainder_of_inside inside
  rw [staysInside, relative, if_neg Bool.false_ne_true]
  exact staysBelow_plain plain

/-- Different files of the memfs have different copies. -/
theorem keepsApart_of_inside {second : CString} (inside : NamedInMemfs cwd path name)
    (also : NamedInMemfs twin other second) : KeepsApart cwd twin path other := by
  intro named _ p q names others known found differ file last same
  obtain rfl := Option.some.inj (inside.names.symm.trans names)
  obtain rfl := Option.some.inj (also.names.symm.trans others)
  obtain rfl := Option.some.inj (inside.known.symm.trans known)
  obtain rfl := Option.some.inj (also.known.symm.trans found)
  obtain ⟨_, plain, outlined⟩ := remainder_of_inside inside
  obtain ⟨_, twins, drawn⟩ := remainder_of_inside also
  rw [collapse_plain plain, collapse_plain twins] at same
  refine differ (CString.ext ?_)
  rw [← normal_of_namedPath inside.names, ← normal_of_namedPath also.names]
  refine lexicallyNormal_eq_of_outline (ne_nil_of_absolute (isAbsolute_of_below inside.below))
    (ne_nil_of_absolute (isAbsolute_of_below also.below)) ?_
  rw [outlined file, drawn last, same]

/-- What is made for two paths is below the directory for the copies, and they
have files of their own, if and only if what the paths have behind as many
characters as the mount point and a separator have never leads out of a
directory, and leads to different places in it. -/
theorem copies_contained_iff (cwd twin : Cwd) (path other : CString) :
    (Contained cwd path ∧ Contained twin other ∧ Separate cwd twin path other) ↔
      KeepsInside cwd path ∧ KeepsInside twin other ∧ KeepsApart cwd twin path other := by
  rw [contained_iff, contained_iff]
  exact and_congr_right fun keeps => and_congr_right fun also => separate_iff keeps also

/-- `/__tebako_memfs__` with more characters before the next separator. -/
def besideMountPoint (path : Str) : CString := cStr (tebakoMountPoint ++ 'x' :: path)

/-- The directory `/d` is made for a copy that should be below `/0`, and a library
shares its copy with one that is not below the mount point. -/
theorem beside_mountPoint_not_contained : (¬ ∀ cwd path, Contained cwd path) ∧
    ¬ ∀ cwd twin path other, Separate cwd twin path other := by
  have made := (privateDirectory_of_digits (List.cons_ne_nil '0' []) (List.forall_mem_singleton.mpr (by decide))).1
  constructor
  · intro always
    have contained := always .init (besideMountPoint ['/', 'd', '/', 'f'])
    have there := contained.directories _ (besideMountPoint ['/', 'd', '/', 'f']) [['d']] made (by decide) (by decide)
    have plain : Plain ['0'] := ⟨by decide, by decide, by decide⟩
    exact @not_below_of_beside ['d'] [['d']] ['0'] plain (by decide) (by decide) (by decide) there
  · intro always
    refine always .init .init (belowMountPoint ['f']) (besideMountPoint ['f']) _ (belowMountPoint ['f'])
      (besideMountPoint ['f']) (belowMountPoint ['f']) (besideMountPoint ['f']) made (by decide) (by decide)
      (by decide) (by decide) (by decide) ?_ ?_ (by decide)
    · exact ⟨by decide, by decide, by decide⟩
    · exact ⟨by decide, by decide, by decide⟩

end Tebako
