import Tebako.IoHelpers

namespace Tebako

open Data.LexicalPath

/-! Which paths belong to a memfs.

A path names the normal form of its text, taken from the current directory
when it is relative. It belongs to a memfs when that is the mount point or lies
below it. -/

/-- A relative path names nothing while the current directory is on the host. -/
def namedPath (cwd : Cwd) (path : CString) : Option CString :=
  if isAbsolute path.chars then some path.normal
  else if cwd.isIn then cwd.map fun cwd => (cwd.join path).normal
  else none

/-- A current directory on the host, or at the mount point or below it. -/
def Cwd.Placed (cwd : Cwd) : Prop :=
  ∀ p, cwd = some p → p.chars = [] ∨ Below tebakoMountPoint p.chars

def belowMountPoint (path : Str) : CString := cStr (tebakoMountPoint ++ '/' :: path)

theorem mountPoint_nonempty : tebakoMountPointName ≠ [] := by decide

theorem mountPoint_clean : '/' ∉ tebakoMountPointName := by decide

theorem isAbsolute_of_below {path : Path} (below : Below tebakoMountPoint path) :
    isAbsolute path = true := by
  rcases below with rfl | ⟨rest, rfl⟩ <;> rfl

theorem isTebakoPath_of_below {path : CString}
    (below : Below tebakoMountPoint path.chars) : isTebakoPath path = true := by
  rw [isTebakoPath_iff]
  rcases below with same | ⟨rest, same⟩
  · exact ⟨[], by simp [same]⟩
  · exact ⟨'/' :: rest, by simp [← same]⟩

/-- Stripping takes off the mount point and the separator after it. -/
def StripsMountPoint (path : CString) : Prop :=
  path.chars = tebakoMountPoint ∧ adjustedPath path = some .empty ∨
    ∃ rest : CString, path.chars = tebakoMountPoint ++ '/' :: rest.chars ∧
      adjustedPath path = some rest

theorem adjustedPath_of_below {path : CString} (below : Below tebakoMountPoint path.chars) :
    adjustedPath path = some (path.drop (tebakoMountPointLength + 1)) := by
  rcases below with same | ⟨rest, same⟩
  · obtain rfl : path = cStr tebakoMountPoint := CString.ext same
    decide
  · have long : ¬ path.chars.length < tebakoMountPointLength := by
      rw [← same, List.length_append, List.length_append, tebakoMountPoint_length]
      omega
    have separator : path.chars.getD tebakoMountPointLength (Char.ofNat 0) ≠ Char.ofNat 0 := by
      rw [← same]
      change '/' ≠ Char.ofNat 0
      decide
    rw [adjustedPath, if_neg long, if_neg separator]

theorem strips_of_below {path : CString} (below : Below tebakoMountPoint path.chars) :
    StripsMountPoint path := by
  have adjusted := adjustedPath_of_below below
  rcases below with same | ⟨rest, same⟩
  · left
    refine ⟨same, adjusted.trans (congrArg some (CString.ext ?_))⟩
    change path.chars.drop (tebakoMountPointLength + 1) = []
    rw [same]
    rfl
  · right
    refine ⟨_, ?_, adjusted⟩
    change path.chars = tebakoMountPoint ++ '/' :: path.chars.drop (tebakoMountPointLength + 1)
    rw [← same, List.append_assoc]
    rfl

theorem tebakoPathAssign_eq_iff {path : CString} :
    (tebakoPathAssign path.chars) = path ↔ path.chars.length ≤ tebakoPathLength := by
  constructor
  · intro same
    have shorter := congrArg (fun path => path.chars.length) same
    simp only [tebakoPathAssign, List.length_take] at shorter
    have whole := congrArg (fun path => path.chars.length) (cStr_chars path)
    omega
  · intro fits
    exact CString.ext (tebakoPathAssign_chars_of_fits path.noNul fits)

/-- `to_tebako_path` takes a path for one of a memfs by the text as given, or
by where the current directory is: what it returns is always made from the path
that is named. -/
theorem toTebakoPath_eq {cwd : Cwd} {path : CString}
    (rooted : isAbsolute path.chars = false → ∀ base : CString, cwd = some base → cwd.isIn = true →
      isAbsolute base.chars = true) :
    toTebakoPath cwd path = (namedPath cwd path).bind fun named =>
      if isAbsolute path.chars = true ∧ isTebakoPath path = false then none
      else some (tebakoPathAssign named.chars) := by
  simp only [toTebakoPath, namedPath, CString.normal_chars, isAbsolute_lexicallyNormal]
  cases absolute : isAbsolute path.chars with
  | true => cases known : isTebakoPath path <;> simp
  | false =>
      have unknown := isTebakoPath_of_relative absolute
      cases within : cwd.isIn with
      | false => simp [unknown]
      | true =>
          cases cwd with
          | none => cases within
          | some base =>
              have same := lexicallyNormal_append_lexicallyNormal (rooted absolute base rfl within) absolute
              simp [expandPath, same]

theorem Cwd.Placed.rooted {cwd : Cwd} (placed : cwd.Placed) (base : CString) (here : cwd = some base)
    (within : cwd.isIn = true) : isAbsolute base.chars = true := by
  subst here
  rcases placed base rfl with empty | below
  · simp [Cwd.isIn, empty] at within
  · exact isAbsolute_of_below below

/-- The classification is exact: a path is taken for one of a memfs when the
path it names belongs to it, and the result is that path and strips well. -/
def ClassifiedExactly (cwd : Cwd) (path : CString) : Prop :=
  toTebakoPath cwd path =
      (namedPath cwd path).filter (fun named => Below tebakoMountPoint named.chars) ∧
    ∀ result, toTebakoPath cwd path = some result → StripsMountPoint result

/-- A path named within the memfs fits the buffer; an absolute one is written
with the mount point in front just when it is named within it, and a relative
one does not leave the memfs. -/
def PlainlyNamed (cwd : Cwd) (path : CString) : Prop :=
  ∀ named, namedPath cwd path = some named →
    (Below tebakoMountPoint named.chars → named.chars.length ≤ tebakoPathLength) ∧
    (isAbsolute path.chars = true →
      (isTebakoPath path = true ↔ Below tebakoMountPoint named.chars)) ∧
    (isAbsolute path.chars = false → Below tebakoMountPoint named.chars)

theorem plainlyNamed_iff {cwd : Cwd} {path named : CString} (names : namedPath cwd path = some named) :
    PlainlyNamed cwd path ↔
      (Below tebakoMountPoint named.chars → named.chars.length ≤ tebakoPathLength) ∧
      (isAbsolute path.chars = true →
        (isTebakoPath path = true ↔ Below tebakoMountPoint named.chars)) ∧
      (isAbsolute path.chars = false → Below tebakoMountPoint named.chars) := by
  simp only [PlainlyNamed, names, Option.some.injEq, forall_eq']

theorem classifiedExactly_iff_of_below {cwd : Cwd} {path named : CString} (placed : cwd.Placed)
    (names : namedPath cwd path = some named) (below : Below tebakoMountPoint named.chars) :
    ClassifiedExactly cwd path ↔ PlainlyNamed cwd path := by
  have kept : (some named).filter (fun named => Below tebakoMountPoint named.chars) =
      some named := by simp [Option.filter, below]
  rw [plainlyNamed_iff names, ClassifiedExactly, toTebakoPath_eq fun _ => placed.rooted, names, Option.bind_some, kept]
  by_cases missed : isAbsolute path.chars = true ∧ isTebakoPath path = false
  · rw [if_pos missed]
    constructor
    · intro classified
      cases classified.1
    · intro plain
      have spelled := (plain.2.1 missed.1).mpr below
      rw [missed.2] at spelled
      cases spelled
  · rw [if_neg missed]
    constructor
    · intro classified
      obtain ⟨same, _⟩ := classified
      refine ⟨fun _ => tebakoPathAssign_eq_iff.mp (Option.some.inj same), ?_, fun _ => below⟩
      intro absolute
      have spelled := eq_true_of_ne_false fun known => missed ⟨absolute, known⟩
      exact ⟨fun _ => below, fun _ => spelled⟩
    · intro plain
      rw [tebakoPathAssign_eq_iff.mpr (plain.1 below)]
      refine ⟨rfl, fun path found => ?_⟩
      obtain rfl := Option.some.inj found
      exact strips_of_below below

theorem classifiedExactly_iff_of_outside {cwd : Cwd} {path named : CString} (placed : cwd.Placed)
    (names : namedPath cwd path = some named) (outside : ¬ Below tebakoMountPoint named.chars) :
    ClassifiedExactly cwd path ↔ PlainlyNamed cwd path := by
  have dropped : (some named).filter (fun named => Below tebakoMountPoint named.chars) =
      none := by simp [Option.filter, outside]
  rw [plainlyNamed_iff names, ClassifiedExactly, toTebakoPath_eq fun _ => placed.rooted, names, Option.bind_some,
    dropped]
  by_cases missed : isAbsolute path.chars = true ∧ isTebakoPath path = false
  · rw [if_pos missed]
    refine ⟨fun _ => ⟨fun inside => absurd inside outside, ?_, ?_⟩,
      fun _ => ⟨rfl, fun _ found => by cases found⟩⟩
    · intro _
      simp [missed.2, outside]
    · intro relative
      rw [missed.1] at relative
      cases relative
  · rw [if_neg missed]
    constructor
    · intro classified
      cases classified.1
    · intro plain
      obtain ⟨_, spelled, relative⟩ := plain
      cases absolute : isAbsolute path.chars with
      | false => exact absurd (relative absolute) outside
      | true =>
          have known := eq_true_of_ne_false fun unknown => missed ⟨absolute, unknown⟩
          exact absurd ((spelled absolute).mp known) outside

theorem classifiedExactly_iff (cwd : Cwd) (path : CString) (placed : cwd.Placed) :
    ClassifiedExactly cwd path ↔ PlainlyNamed cwd path := by
  cases names : namedPath cwd path with
  | none => simp [ClassifiedExactly, PlainlyNamed, toTebakoPath_eq fun _ => placed.rooted, names]
  | some named =>
      by_cases below : Below tebakoMountPoint named.chars
      · exact classifiedExactly_iff_of_below placed names below
      · exact classifiedExactly_iff_of_outside placed names below

theorem classified_in_directory :
    ClassifiedExactly (some (cStr (tebakoMountPoint ++ ['/', 'd', '/']))) (cStr ['.', '.', '/', 'f']) :=
  (classifiedExactly_iff _ _ (fun p same => by cases same; exact .inr (by decide))).mpr
    (fun named same => by
      obtain rfl : named = cStr (tebakoMountPoint ++ ['/', 'f']) := by
        revert named
        decide
      refine ⟨fun _ => by decide, fun absolute => by revert absolute; decide, fun _ => by decide⟩)

/-- `..` leads out of the memfs: from its root directory, `../etc` names a path
of the host, which is looked up in the memfs all the same. -/
theorem parent_of_root_not_classified :
    ¬ ∀ cwd path, cwd.Placed → ClassifiedExactly cwd path := by
  intro always
  have placed : Cwd.Placed (some (cStr (tebakoMountPoint ++ ['/']))) := by
    intro p same
    cases same
    exact .inr (by decide)
  have same := (always _ (cStr ['.', '.', '/', 'e', 't', 'c']) placed).1
  revert same
  decide

end Tebako
