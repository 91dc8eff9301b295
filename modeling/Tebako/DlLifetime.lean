import Mathlib.Data.Nat.Digits.Defs
import Tebako.DlCache
import Tebako.DlErrors
import Tebako.DlNames

namespace Tebako

open Data Data.LexicalPath Data.OrderedMap

/-! The directory for the copies of libraries, from the start of a process to its
end.

It is made with a random name when the process starts. A copy that has been
given to the loader stays as it is, and at the end all of them go away. -/

/-- `std::hex` -/
def hexText (value : UInt64) : Str :=
  if value = 0 then ['0'] else (Nat.digits 16 value.toNat).reverse.map fun digit => hexDigits.getD digit '0'

def maxTries : Nat := 1024

/-- The loop of `create_temporary_directory`. Where `create_directory` throws, as
after the last name, there is no directory and no process. -/
def tryNames (tmpDir : CString) (rand : Nat → UInt64) (creates : CString → Option Bool) : Nat → Option CString
  | 0 => none
  | left + 1 =>
      let dlTmpdir := tmpDir.join (cStr (hexText (rand left)))
      match creates dlTmpdir with
      | none => none
      | some true => some dlTmpdir
      | some false => tryNames tmpDir rand creates left

def createTemporaryDirectory (tmpDir : CString) (rand : Nat → UInt64) (creates : CString → Option Bool) :
    Option CString :=
  tryNames tmpDir rand creates maxTries

/-- The name is that of the directory or of something in it. -/
def Beneath (dir : CString) (key : Str) : Prop := collapse true (names dir.chars) <+: collapse true (names key)

instance (dir : CString) (key : Str) : Decidable (Beneath dir key) := inferInstanceAs (Decidable (_ <+: _))

/-- `remove_all` -/
def removeAll (dir : CString) (disk : Disk) : Disk := disk.filter fun key _ => ¬ Beneath dir key

/-- `~sync_tebako_dltable` -/
def DlState.destroy (env : DlEnv) (s : DlState) : Disk :=
  removeAll env.dlTmpdir (s.dltable.toList.foldl (fun disk entry => disk.erase entry.2.onDisk) s.disk)

/-- A path that does not go to the host names something in the memfs, and no
directory is opened for writing. -/
def DlState.NamesLibrary (env : DlEnv) (s : DlState) (host : HostAnswers) (path : Option CString) : Prop :=
  ∀ given p, path = some given → toTebakoPath s.globals.cwd given = some p →
    NamedInMemfs s.globals.cwd given p ∧ host.OpensFiles (mapName env.dlTmpdir p)

def DlOp.Sound (env : DlEnv) (s : DlState) : DlOp → Prop
  | .mounting _ => True
  | .dlopen _ host path => s.NamesLibrary env host path
  | .dlmap2file _ host path => s.NamesLibrary env host path

/-- The path of a call that leads into the memfs. -/
def DlOp.onMemfs (cwd : Cwd) : DlOp → Option CString
  | .dlopen _ _ path => path.bind (toTebakoPath cwd)
  | .dlmap2file _ _ path => path.bind (toTebakoPath cwd)
  | .mounting _ => none

/-- The name that an answer hands to the loader or to the caller. -/
def DlAnswer.copy : DlAnswer → Option CString
  | .dlopen path => path
  | .mapped name => some name
  | _ => none

def InMemfs (p : CString) : Prop := ∃ cwd path, NamedInMemfs cwd path p

/-- Each copy of the table has a file, and only files in the directory for them
are not what they were on this disk. -/
structure Stocked (env : DlEnv) (disk : Disk) (s : DlState) : Prop where
  copies : ∀ {key : Str} {name : CString}, s.dltable[key]? = some name →
    ∃ p, p.chars = key ∧ name = mapName env.dlTmpdir p ∧ InMemfs p ∧ NamesFile name ∧ name.onDisk ∈ s.disk
  elsewhere : ∀ key, ¬ Beneath env.dlTmpdir key → s.disk[key]? = disk[key]?

/-- What has been copied stays in the table, and the copy as it is. -/
def Preserves (s after : DlState) : Prop :=
  ∀ (key : Str) (name : CString), s.dltable[key]? = some name →
    after.dltable[key]? = some name ∧ after.disk[name.onDisk]? = s.disk[name.onDisk]?

variable {env : DlEnv} {s after : DlState} {host : HostAnswers} {fuel : Nat} {disk : Disk}
variable {tmpDir dlTmpdir path name p q : CString} {rand : Nat → UInt64} {creates : CString → Option Bool}

/-! ## The directory -/

theorem hexText_digits (value : UInt64) : hexText value ≠ [] ∧ ∀ digit ∈ hexText value, digit ∈ hexDigits := by
  unfold hexText
  split
  · have zero : '0' ∈ hexDigits := List.mem_cons_self
    exact ⟨List.cons_ne_nil _ _, fun digit listed => List.mem_singleton.mp listed ▸ zero⟩
  · rename_i positive
    constructor
    · have some : value.toNat ≠ 0 := fun same => positive (UInt64.toNat_inj.mp same)
      simpa [Nat.digits_ne_nil_iff_ne_zero] using some
    · intro digit member
      obtain ⟨number, listed, rfl⟩ := List.mem_map.mp member
      have small : number < 16 := Nat.digits_lt_base (by decide) (List.mem_reverse.mp listed)
      have length : hexDigits.length = 16 := rfl
      rw [List.getD_eq_getElem?_getD, List.getElem?_eq_getElem (by omega), Option.getD_some]
      exact List.getElem_mem _

theorem tryNames_made {left : Nat} (made : tryNames tmpDir rand creates left = some dlTmpdir) :
    creates dlTmpdir = some true ∧ ∃ value, dlTmpdir = tmpDir.join (cStr (hexText value)) := by
  induction left with
  | zero => cases made
  | succ left ih =>
      simp only [tryNames] at made
      split at made
      · cases made
      · rename_i created
        cases made
        exact ⟨created, _, rfl⟩
      · exact ih made

theorem privateDirectory_of_created (absolute : isAbsolute tmpDir.chars = true)
    (created : createTemporaryDirectory tmpDir rand creates = some dlTmpdir) : PrivateDirectory dlTmpdir := by
  obtain ⟨_, value, rfl⟩ := tryNames_made created
  obtain ⟨named, digits⟩ := hexText_digits value
  have text : (cStr (hexText value)).chars = hexText value :=
    cStr_chars_of_noNul fun nul => absurd (digits _ nul) (by decide)
  exact ⟨tmpDir, _, rfl, absolute, by rwa [text], by rwa [text]⟩

theorem beneath_of_strictlyBelow {key : Str} (below : StrictlyBelow dlTmpdir.chars (names key)) :
    Beneath dlTmpdir key := by
  obtain ⟨rest, _, leads⟩ := below
  exact ⟨rest, leads.symm⟩

/-! ## Copies -/

theorem InMemfs.below (inside : InMemfs p) (made : PrivateDirectory dlTmpdir)
    (file : NamesFile (mapName dlTmpdir p)) : StrictlyBelow dlTmpdir.chars (names (mapName dlTmpdir p).onDisk) := by
  obtain ⟨cwd, path, named⟩ := inside
  obtain ⟨rest, present, leads⟩ := strictlyBelow_of_stays (keepsInside_of_inside named p named.known) file
  exact ⟨rest, present, by rw [names_onDisk made, collapse_collapse, leads]⟩

theorem InMemfs.apart (inside : InMemfs p) (also : InMemfs q) (made : PrivateDirectory dlTmpdir)
    (file : NamesFile (mapName dlTmpdir p)) (second : NamesFile (mapName dlTmpdir q)) (different : p ≠ q) :
    (mapName dlTmpdir p).onDisk ≠ (mapName dlTmpdir q).onDisk := by
  obtain ⟨cwd, path, named⟩ := inside
  obtain ⟨twin, other, twins⟩ := also
  have apart := (separate_iff (keepsInside_of_inside named) (keepsInside_of_inside twins)).mpr
    (keepsApart_of_inside named twins)
  exact apart dlTmpdir p q p q made named.names twins.names named.known twins.known different file second

/-- What one call to `map2file` does to the table and to the disk. -/
structure MapsFile (env : DlEnv) (host : HostAnswers) (s : DlState) (path name : CString) (after : DlState) : Prop where
  table : after.dltable = s.dltable ∨ host.opensOutput = true ∧ s.dltable[path.chars]? = none ∧
    after.dltable = Std.ExtTreeMap.insert s.dltable path.chars (mapName env.dlTmpdir path) ∧
    (mapName env.dlTmpdir path).onDisk ∈ after.disk
  disk : ∀ key, after.disk[key]? ≠ s.disk[key]? →
    key = (mapName env.dlTmpdir path).onDisk ∧ host.opensOutput = true ∧ s.dltable[path.chars]? = none
  named : name.chars ≠ [] → after.dltable[path.chars]? = some name

/-- A path that is not in the table is copied, or the table stays as it is. -/
theorem table_of_map2file (cached : s.dltable[path.chars]? = none)
    (done : s.map2file env fuel host path = some (name, after)) :
    (name = .empty ∧ after.dltable = s.dltable) ∨ name = mapName env.dlTmpdir path ∧ host.opensOutput = true ∧
      after.dltable = Std.ExtTreeMap.insert s.dltable path.chars name ∧ name.onDisk ∈ after.disk := by
  simp only [DlState.map2file, cached] at done
  split at done
  · cases done
    exact .inl ⟨rfl, rfl⟩
  · split at done
    · cases done
    · cases done
      exact .inl ⟨rfl, rfl⟩
    · simp only [DlState.extract] at done
      split at done
      · cases done
        exact .inl ⟨rfl, rfl⟩
      · split at done
        · cases done
          exact .inl ⟨rfl, rfl⟩
        · rename_i opens
          obtain ⟨c, _, same⟩ := Option.map_eq_some_iff.mp done
          simp only [DlState.finish] at same
          split at same
          · cases same
            exact .inr ⟨rfl, Bool.eq_true_of_not_eq_false opens, rfl, mem_insert_iff.mpr (.inl rfl)⟩
          · cases same
            exact .inl ⟨rfl, rfl⟩

theorem mapsFile (done : s.map2file env fuel host path = some (name, after)) :
    MapsFile env host s path name after := by
  cases cached : s.dltable[path.chars]? with
  | some held =>
      rw [map2file_of_cached cached] at done
      cases done
      exact ⟨.inl rfl, fun key changed => absurd rfl changed, fun _ => cached⟩
  | none =>
      have changes : ∀ key, after.disk[key]? ≠ s.disk[key]? →
          key = (mapName env.dlTmpdir path).onDisk ∧ host.opensOutput = true ∧ s.dltable[path.chars]? = none := by
        intro key changed
        obtain ⟨same, opens⟩ := map2file_disk done changed
        exact ⟨same, opens, cached⟩
      rcases table_of_map2file cached done with ⟨rfl, same⟩ | ⟨rfl, opens, inserted, there⟩
      · exact ⟨.inl same, changes, fun named => absurd rfl named⟩
      · refine ⟨.inr ⟨opens, cached, inserted, there⟩, changes, fun _ => ?_⟩
        rw [inserted]
        exact Std.ExtTreeMap.getElem?_insert_self

/-- The call for a path of the memfs: it keeps the files of the other copies. -/
theorem MapsFile.keeps (maps : MapsFile env host s path name after) (made : PrivateDirectory env.dlTmpdir)
    (stocked : Stocked env disk s) (inside : InMemfs path) (opens : host.OpensFiles (mapName env.dlTmpdir path)) :
    Stocked env disk after ∧ Preserves s after := by
  have apart : ∀ {key : Str} {held : CString}, s.dltable[key]? = some held →
      after.disk[held.onDisk]? = s.disk[held.onDisk]? := by
    intro key held found
    by_contra changed
    obtain ⟨same, output, uncached⟩ := maps.disk held.onDisk changed
    obtain ⟨q, rfl, rfl, others, file, _⟩ := stocked.copies found
    have different : q ≠ path := by
      intro equal
      rw [equal, uncached] at found
      cases found
    exact others.apart inside made file (opens output) different same
  have kept : ∀ {key : Str} {held : CString}, s.dltable[key]? = some held → held.onDisk ∈ after.disk := by
    intro key held found
    obtain ⟨_, _, _, _, _, there⟩ := stocked.copies found
    rw [Std.ExtTreeMap.mem_iff_isSome_getElem?, apart found]
    exact Std.ExtTreeMap.mem_iff_isSome_getElem?.mp there
  have elsewhere : ∀ key, ¬ Beneath env.dlTmpdir key → after.disk[key]? = disk[key]? := by
    intro key outside
    rw [← stocked.elsewhere key outside]
    by_contra changed
    obtain ⟨rfl, output, _⟩ := maps.disk key changed
    exact outside (beneath_of_strictlyBelow (inside.below made (opens output)))
  rcases maps.table with same | ⟨output, uncached, inserted, there⟩
  · refine ⟨⟨fun {key held} found => ?_, elsewhere⟩, fun key held found => ⟨by rw [same, found], apart found⟩⟩
    rw [same] at found
    obtain ⟨q, spelled, mapped, others, file, _⟩ := stocked.copies found
    exact ⟨q, spelled, mapped, others, file, kept found⟩
  · refine ⟨⟨fun {key held} found => ?_, elsewhere⟩, fun key held found => ⟨?_, apart found⟩⟩
    · rw [inserted] at found
      rcases getElem?_insert_iff.mp found with ⟨rfl, rfl⟩ | ⟨_, before⟩
      · exact ⟨path, rfl, rfl, inside, opens output, there⟩
      · obtain ⟨q, spelled, mapped, others, file, _⟩ := stocked.copies before
        exact ⟨q, spelled, mapped, others, file, kept before⟩
    · rw [inserted]
      have different : key ≠ path.chars := by
        intro same
        rw [same, uncached] at found
        cases found
      rw [getElem?_insert_ne different, found]

/-! ## Runs -/

section Runs

variable {op : DlOp} {answer : Option DlAnswer} {later : DlState}

theorem Preserves.refl : Preserves s s := fun _ _ found => ⟨found, rfl⟩

theorem Preserves.trans (first : Preserves s after) (second : Preserves after later) : Preserves s later := by
  intro key name found
  obtain ⟨there, same⟩ := first key name found
  obtain ⟨still, alike⟩ := second key name there
  exact ⟨still, alike.trans same⟩

theorem finished_maps {answers : CString × DlState → DlAnswer}
    (done : finished s ((s.map2file env fuel host p).map fun mapped => (answers mapped, mapped.2)) = (answer, after)) :
    (answer = none ∧ after = s) ∨
      ∃ name, s.map2file env fuel host p = some (name, after) ∧ answer = some (answers (name, after)) := by
  cases mapped : s.map2file env fuel host p with
  | none =>
      rw [mapped] at done
      cases done
      exact .inl ⟨rfl, rfl⟩
  | some found =>
      rw [mapped] at done
      cases done
      exact .inr ⟨found.1, rfl, rfl⟩

/-- A call with a path does nothing, or what `map2file` does for the path. -/
theorem dlStep_maps (done : dlStep env op s = (answer, after)) :
    (after.dltable = s.dltable ∧ after.disk = s.disk ∧ (op.onMemfs s.globals.cwd ≠ none → answer = none)) ∨
      ∃ fuel host given p name, op.onMemfs s.globals.cwd = some p ∧ toTebakoPath s.globals.cwd given = some p ∧
        (op.Sound env s → s.NamesLibrary env host (some given)) ∧
        s.map2file env fuel host p = some (name, after) ∧
        ∀ copy, answer.bind DlAnswer.copy = some copy → copy = name ∧ name.chars ≠ [] := by
  cases op with
  | mounting op =>
      cases done
      exact .inl ⟨rfl, rfl, fun inside => absurd rfl inside⟩
  | dlopen fuel host path =>
      cases path with
      | none =>
          cases done
          exact .inl ⟨rfl, rfl, fun inside => absurd rfl inside⟩
      | some given =>
          cases known : toTebakoPath s.globals.cwd given with
          | none =>
              simp only [dlStep, DlState.tebakoDlopen, known, finished] at done
              cases done
              exact .inl ⟨rfl, rfl, fun inside => absurd known inside⟩
          | some p =>
              simp only [dlStep, DlState.tebakoDlopen, known] at done
              rcases finished_maps done with ⟨rfl, rfl⟩ | ⟨name, mapped, rfl⟩
              · exact .inl ⟨rfl, rfl, fun _ => rfl⟩
              · refine .inr ⟨fuel, host, given, p, name, known, known, id, mapped, fun copy same => ?_⟩
                by_cases unnamed : name.chars = []
                · simp [unnamed, DlAnswer.copy] at same
                · simp only [unnamed, ↓reduceIte, Option.bind_some, DlAnswer.copy, Option.some.injEq] at same
                  exact ⟨same.symm, unnamed⟩
  | dlmap2file fuel host path =>
      cases path with
      | none =>
          cases done
          exact .inl ⟨rfl, rfl, fun inside => absurd rfl inside⟩
      | some given =>
          cases known : toTebakoPath s.globals.cwd given with
          | none =>
              simp only [dlStep, DlState.tebakoDlmap2file, known, finished] at done
              cases done
              exact .inl ⟨rfl, rfl, fun inside => absurd known inside⟩
          | some p =>
              simp only [dlStep, DlState.tebakoDlmap2file, known] at done
              rcases finished_maps done with ⟨rfl, rfl⟩ | ⟨name, mapped, rfl⟩
              · exact .inl ⟨rfl, rfl, fun _ => rfl⟩
              · refine .inr ⟨fuel, host, given, p, name, known, known, id, mapped, fun copy same => ?_⟩
                by_cases unnamed : name.chars = []
                · simp [unnamed, DlAnswer.copy] at same
                · simp only [unnamed, ↓reduceIte, Option.bind_some, DlAnswer.copy, Option.some.injEq] at same
                  exact ⟨same.symm, unnamed⟩

theorem Stocked.step (stocked : Stocked env disk s) (made : PrivateDirectory env.dlTmpdir) (sound : op.Sound env s) :
    Stocked env disk (dlStep env op s).2 ∧ Preserves s (dlStep env op s).2 := by
  rcases called : dlStep env op s with ⟨answer, after⟩
  rcases dlStep_maps called with ⟨table, files, _⟩ | ⟨fuel, host, given, p, name, _, known, names, mapped, _⟩
  · constructor
    · constructor
      · intro key held found
        rw [files]
        exact stocked.copies (table ▸ found)
      · rw [files]
        exact stocked.elsewhere
    · intro key held found
      rw [table, files]
      exact ⟨found, rfl⟩
  · obtain ⟨named, opens⟩ := names sound given p rfl known
    exact (mapsFile mapped).keeps made stocked ⟨_, _, named⟩ opens

theorem Stocked.run (stocked : Stocked env disk s) (made : PrivateDirectory env.dlTmpdir)
    (reached : Machine.Reaches (dlStep env) (fun s op => op.Sound env s) s later) :
    Stocked env disk later ∧ Preserves s later := by
  apply @Machine.Reaches.invariant _ _ _ _ _ _ _ (fun later => Stocked env disk later ∧ Preserves s later) reached
  · exact ⟨stocked, .refl⟩
  intro state op kept sound
  obtain ⟨stocked, preserved⟩ := kept.1.step made sound
  exact ⟨stocked, kept.2.trans preserved⟩

/-- A copy that a call names is in the table then. -/
theorem copy_in_table {name : CString} (inside : op.onMemfs s.globals.cwd = some p)
    (done : dlStep env op s = (answer, after)) (named : answer.bind DlAnswer.copy = some name) :
    after.dltable[p.chars]? = some name := by
  rcases dlStep_maps done with ⟨_, _, silent⟩ | ⟨fuel, host, given, q, found, same, _, _, mapped, copies⟩
  · rw [silent (by simp [inside])] at named
    cases named
  · obtain rfl := Option.some.inj (inside.symm.trans same)
    obtain ⟨rfl, named⟩ := copies name named
    exact (mapsFile mapped).named named

end Runs

/-! ## The end of the process -/

theorem foldl_erase_getElem? {entries : List (Str × CString)} {files : Disk} {key : Str}
    (spared : ∀ entry ∈ entries, entry.2.onDisk ≠ key) :
    (entries.foldl (fun disk entry => disk.erase entry.2.onDisk) files)[key]? = files[key]? := by
  induction entries generalizing files with
  | nil => rfl
  | cons entry rest ih =>
      rw [List.foldl_cons, ih fun other member => spared other (by simp [member])]
      exact getElem?_erase_ne (Ne.symm (spared entry (by simp)))

theorem Stocked.destroy (stocked : Stocked env disk s) (made : PrivateDirectory env.dlTmpdir)
    (fresh : ∀ key ∈ disk, ¬ Beneath env.dlTmpdir key) : s.destroy env = disk := by
  apply Std.ExtTreeMap.ext_getElem?
  intro key
  simp only [DlState.destroy, removeAll, Std.ExtTreeMap.getElem?_filter']
  by_cases beneath : Beneath env.dlTmpdir key
  · have missing : disk[key]? = none := Std.ExtTreeMap.getElem?_eq_none fun there => fresh key there beneath
    rw [missing]
    simp [beneath]
  · have spared : ∀ entry ∈ s.dltable.toList, entry.2.onDisk ≠ key := by
      intro entry member same
      obtain ⟨p, _, mapped, inside, file, _⟩ :=
        stocked.copies (Std.ExtTreeMap.mem_toList_iff_getElem?_eq_some.mp member)
      rw [mapped] at file same
      exact beneath (same ▸ beneath_of_strictlyBelow (inside.below made file))
    rw [foldl_erase_getElem? spared, stocked.elsewhere key beneath]
    cases disk[key]? with
    | none => rfl
    | some bytes => simp [beneath]

theorem initial_stocked (disk : Disk) : Stocked env disk (.initial disk) where
  copies found := by simp [DlState.initial] at found
  elsewhere _ _ := rfl

/-- Whatever the process does in between, at its end the disk is what it was at
its start. Until then a copy that has been given to the loader, or to the caller,
is below the directory for the copies and stays as it is. -/
theorem copies_last (env : DlEnv) (tmpDir : CString) (rand : Nat → UInt64) (creates : CString → Option Bool)
    (disk : Disk) (s : DlState) (absolute : isAbsolute tmpDir.chars = true)
    (created : createTemporaryDirectory tmpDir rand creates = some env.dlTmpdir)
    (fresh : ∀ dir, creates dir = some true → ∀ key ∈ disk, ¬ Beneath dir key)
    (reached : Machine.Reaches (dlStep env) (fun s op => op.Sound env s) (.initial disk) s) :
    s.destroy env = disk ∧
      ∀ op p answer name after, op.Sound env s → op.onMemfs s.globals.cwd = some p →
        dlStep env op s = (answer, after) → answer.bind DlAnswer.copy = some name →
          StrictlyBelow env.dlTmpdir.chars (names name.onDisk) ∧ name.onDisk ∈ after.disk ∧
            ∀ later, Machine.Reaches (dlStep env) (fun s op => op.Sound env s) after later →
              later.disk[name.onDisk]? = after.disk[name.onDisk]? := by
  have made := privateDirectory_of_created absolute created
  obtain ⟨stocked, _⟩ := (initial_stocked disk).run made reached
  refine ⟨stocked.destroy made (fresh _ (tryNames_made created).1), ?_⟩
  intro op p answer name after sound inside called named
  have next : Stocked env disk after := by
    have kept := (stocked.step made sound).1
    rwa [called] at kept
  have held := copy_in_table inside called named
  obtain ⟨q, _, mapped, library, file, there⟩ := next.copies held
  refine ⟨?_, there, fun later reached => ((next.run made reached).2 _ _ held).2⟩
  rw [mapped] at file ⊢
  exact library.below made file

/-- A disk with a file of its own. -/
def usedDisk : Disk := Std.ExtTreeMap.insert ∅ ['/', 'k'] [2]

def ownEnv : DlEnv := { libraryEnv with dlTmpdir := (cStr ['/', 't']).join (cStr ['a']) }

def ownMounted : DlState := { DlState.initial usedDisk with globals := libraryMounted [1] }

def copyLibrary : DlOp := .dlmap2file 9 libraryHost (some libraryPath)

theorem copyLibrary_sound : copyLibrary.Sound ownEnv ownMounted := by
  intro given p same known
  cases same
  have inside : NamedInMemfs ownMounted.globals.cwd libraryPath libraryPath := ⟨by decide, by decide, by decide⟩
  obtain rfl := Option.some.inj (inside.known.symm.trans known)
  exact ⟨inside, fun _ => ⟨by decide, by decide, by decide⟩⟩

theorem library_copy_lasts :
    (dlStep ownEnv copyLibrary ownMounted).2.destroy ownEnv = usedDisk ∧
      (mapName ownEnv.dlTmpdir libraryPath).onDisk ∈ (dlStep ownEnv copyLibrary ownMounted).2.disk ∧
        ∀ later, Machine.Reaches (dlStep ownEnv) (fun s op => op.Sound ownEnv s)
            (dlStep ownEnv copyLibrary ownMounted).2 later →
          later.disk[(mapName ownEnv.dlTmpdir libraryPath).onDisk]? =
            (dlStep ownEnv copyLibrary ownMounted).2.disk[(mapName ownEnv.dlTmpdir libraryPath).onDisk]? := by
  have created : createTemporaryDirectory (cStr ['/', 't']) (fun _ => 10)
      (fun dir => some (decide (dir = ownEnv.dlTmpdir))) = some ownEnv.dlTmpdir := by decide +kernel
  have fresh : ∀ dir, some (decide (dir = ownEnv.dlTmpdir)) = some true → ∀ key ∈ usedDisk, ¬ Beneath dir key := by
    intro dir new key there
    obtain rfl := of_decide_eq_true (Option.some.inj new)
    rcases mem_insert_iff.mp there with rfl | missing
    · decide +kernel
    · simp at missing
  have mounted : (dlStep ownEnv (.mounting (.mountRoot {} (librarySource [1]))) (.initial usedDisk)).2 = ownMounted := by
    simp only [dlStep, rootStep, DlState.initial, ownEnv, libraryEnv, library_mounted, ownMounted]
  have before : Machine.Reaches (dlStep ownEnv) (fun s op => op.Sound ownEnv s) (.initial usedDisk) ownMounted := by
    rw [← mounted]
    exact .step _ .start trivial
  have last := copies_last ownEnv (cStr ['/', 't']) (fun _ => 10) (fun dir => some (decide (dir = ownEnv.dlTmpdir)))
    usedDisk
  refine ⟨(last _ (by decide) created fresh (.step copyLibrary before copyLibrary_sound)).1, ?_⟩
  have answered : (dlStep ownEnv copyLibrary ownMounted).1 = some (.mapped (mapName ownEnv.dlTmpdir libraryPath)) := by
    decide +kernel
  exact ((last _ (by decide) created fresh before).2 copyLibrary libraryPath _ _ _ copyLibrary_sound (by decide)
    (Prod.mk.eta.symm) (by rw [answered]; rfl)).2

end Tebako
