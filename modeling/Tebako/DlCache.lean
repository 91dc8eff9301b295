import Tebako.DlCtl

namespace Tebako

open Data Data.Loop Data.LexicalPath Data.OrderedMap

/-! Whether the copies of libraries hold what the memfs holds.

The table of copies is left alone when images are mounted and unmounted. A copy
is good for as long as the path that it was made for leads to the same bytes. -/

/-- The last state of the lookup of a path, all links followed, and the result. -/
def EndsAt (w : World) (path : CString) (last : FindState × Nat) (resolved : Resolved) : Prop :=
  ∃ p start, toTebakoPath w.cwd path = some p ∧ Request.start w (.stat p) = .ok start ∧
    Relation.ReflTransGen (Moves (chainBody w exitOf true)) (start, 0) last ∧
    chainBody w exitOf true last = .halt resolved

inductive LeadsTo (w : World) (disk : Disk) (path : CString) : LibraryFile → Prop where
  | image {memfs : Memfs} {pi : InodeView} {st : FileStat} {rest : List CString} {count : Nat}
      (ends : EndsAt w path (.walk memfs pi st rest, count) (.inode st, count)) :
      LeadsTo w disk path (.image memfs.fs pi.inodeNum)
  | host {last : FindState × Nat} {lnk : CString} {st : FileStat} {count : Nat} {bytes : List UInt8}
      (ends : EndsAt w path last (.outside lnk st, count)) (there : disk[lnk.onDisk]? = some bytes) :
      LeadsTo w disk path (.host bytes)

/-- No link back into the memfs comes before one that leads out of it, and the
attributes found are those of the inode where the lookup ends, with a number
that leads back to its image. -/
structure FoundSoundly (w : World) (path : CString) : Prop where
  direct : ∀ last resolved, EndsAt w path last resolved →
    LeavesDirectly resolved ∧ ∀ lnk, resolved.1 ≠ .lost lnk
  own : ∀ memfs pi st rest count, EndsAt w path (.walk memfs pi st rest, count) (.inode st, count) →
    memfs.getattr pi = .ok st ∧ w.memfsTable[getFsIndex st.ino.toUInt32.toUInt64]? = some memfs

/-- What dwarfs promises about every image that is loaded. -/
def Loader.Serves (loader : Loader) (contents : Dwarfs → UInt32 → List UInt8) : Prop :=
  ∀ data size opts root fs, loader.openImage data size opts root = some fs → fs.Serves (contents fs)

def MemfsTable.Served (contents : Dwarfs → UInt32 → List UInt8) (table : MemfsTable) : Prop :=
  ∀ (index : UInt32) (memfs : Memfs), table[index]? = some memfs → memfs.fs.Serves (contents memfs.fs)

namespace DlState

variable (env : DlEnv) (contents : Dwarfs → UInt32 → List UInt8) (s : DlState)

def Leads (path : CString) (file : LibraryFile) : Prop := LeadsTo (s.world env) s.disk path file

/-- The file of the host holds the bytes that the path leads to. -/
def HoldsCopy (path name : CString) : Prop :=
  ∃ file, s.Leads env path file ∧ s.disk[name.onDisk]? = some (file.bytes contents)

/-- The path is looked up soundly, and the host has no file yet where the copy
is made, or one that holds the same bytes already. -/
structure Ready (path : CString) : Prop where
  sound : FoundSoundly (s.world env) path
  short : ∀ bytes, s.Leads env path (.host bytes) → (bytes.length : Int) ≤ offMax
  free : s.disk[(mapName env.dlTmpdir path).onDisk]? = none ∨
    ∃ file, s.Leads env path file ∧ file.ReadsWhole contents ∧
      s.disk[(mapName env.dlTmpdir path).onDisk]? = some (file.bytes contents)

def Keeps (after : DlState) : Prop :=
  ∀ path, isTebakoPath path = true → path.chars ∈ s.dltable → ∀ file, s.Leads env path file →
    ∃ other, after.Leads env path other ∧ other.bytes contents = file.bytes contents

def PermitsMapping (host : HostAnswers) (path : Option CString) : Prop :=
  host.Succeed ∧ ∀ name p, path = some name → toTebakoPath s.globals.cwd name = some p →
    p.chars ∉ s.dltable → s.Ready env contents p

/-- Mounting and unmounting change nothing about the bytes that the paths of the
table lead to. -/
def Permits : DlOp → Prop
  | .mounting op => s.Keeps env contents (dlStep env (.mounting op) s).2
  | .dlopen _ host path => s.PermitsMapping env contents host path
  | .dlmap2file _ host path => s.PermitsMapping env contents host path

structure Coherent : Prop where
  served : s.globals.memfsTable.Served contents
  names : ∀ path name, s.dltable[path.chars]? = some name → name = mapName env.dlTmpdir path
  copies : ∀ path name, isTebakoPath path = true → s.dltable[path.chars]? = some name →
    s.HoldsCopy env contents path name

end DlState

variable {w : World} {disk : Disk} {path p name : CString} {file other : LibraryFile}
variable {last : FindState × Nat} {resolved : Resolved} {st : FileStat} {lnk : CString} {fuel : Nat}
variable {env : DlEnv} {contents : Dwarfs → UInt32 → List UInt8} {s after : DlState}
variable {host : HostAnswers}

/-! ## Where a path leads -/

theorem EndsAt.unique {finish : FindState × Nat} {result : Resolved} (first : EndsAt w path last resolved)
    (second : EndsAt w path finish result) : last = finish ∧ resolved = result := by
  obtain ⟨p, start, known, starts, reached, stopped⟩ := first
  obtain ⟨q, origin, same, begins, comes, halted⟩ := second
  obtain rfl := Option.some.inj (known.symm.trans same)
  obtain rfl := Except.ok.inj (starts.symm.trans begins)
  obtain rfl := halt_unique reached stopped comes halted
  exact ⟨rfl, Step.halt.inj (stopped.symm.trans halted)⟩

theorem LeadsTo.unique (first : LeadsTo w disk path file) (second : LeadsTo w disk path other) :
    file = other := by
  cases first with
  | image ends =>
      cases second with
      | image also =>
          obtain ⟨same, _⟩ := ends.unique also
          cases same
          rfl
      | host also _ => cases (ends.unique also).2
  | host ends there =>
      cases second with
      | image also => cases (ends.unique also).2
      | host also held =>
          cases (ends.unique also).2
          rw [Option.some.inj (there.symm.trans held)]

theorem EndsAt.of_returns {start : FindState} (known : toTebakoPath w.cwd path = some p)
    (starts : Request.start w (.stat p) = .ok start)
    (returned : Returns (chainBody w exitOf true) (start, 0) resolved) :
    ∃ last, EndsAt w path last resolved := by
  obtain ⟨last, reached, _, stopped⟩ := returned.invariant (fun _ _ _ _ => trivial) trivial
  exact ⟨last, p, start, known, starts, reached, stopped⟩

theorem EndsAt.of_stat (sound : FoundSoundly w path) (known : toTebakoPath w.cwd path = some p)
    (ran : dwarfsStat w fuel p true = some (.ok (.inode st))) :
    ∃ memfs pi rest count, EndsAt w path (.walk memfs pi st rest, count) (.inode st, count) := by
  obtain ⟨start, starts, answers⟩ := @Request.started w true (.stat p) fuel _ ran
  obtain ⟨_, memfs, inode, rest, rfl, _⟩ := Request.start_held starts
  obtain ⟨⟨outcome, count⟩, returned⟩ := halts_exitOf (halts_of_answers answers)
  obtain ⟨⟨state, first⟩, ends⟩ := EndsAt.of_returns known starts returned
  have resolves : Resolves w (.stat p) (outcome, count) := by simpa only [Resolves, starts] using returned
  obtain ⟨direct, whole⟩ := sound.direct _ _ ends
  obtain ⟨rfl, _⟩ := ((followsSoundly_iff resolves whole).mpr direct).1 fuel st ran
  obtain ⟨_, _, _, _, _, stopped⟩ := id ends
  rcases nested_cases stopped with ⟨after, _, same⟩ | ⟨found, taken, left⟩
  · cases same
  · obtain ⟨rfl, rfl⟩ := leaveInode_inode left
    cases findHalt_of_halt taken with
    | inode ended => exact ⟨_, _, _, _, ends⟩

theorem EndsAt.of_stat_outside (known : toTebakoPath w.cwd path = some p)
    (ran : dwarfsStat w fuel p true = some (.ok (.linkOutside lnk st))) :
    ∃ last, EndsAt w path last (.outside lnk st, 0) := by
  obtain ⟨start, starts, answers⟩ := @Request.started w true (.stat p) fuel _ ran
  obtain ⟨finished, unknown⟩ := answers_outside_iff.mp answers
  refine EndsAt.of_returns known starts ((returns_nested finished).mpr ?_)
  simp only [leaveInode, exitOf_outside unknown, Leads]

/-! ## What a copy holds -/

/-- The loop ends with all bytes of the file that the path leads to, or with
some left; the latter not if the file can be read to its size. -/
theorem copied_file {input : DlInput} {table : FdTable} {size : Nat} {c : Copying (FdTable × Nat)}
    {dup : Int} (served : s.globals.memfsTable.Served contents) (succeed : host.Succeed)
    (sound : FoundSoundly (s.world env) path)
    (short : ∀ bytes, s.Leads env path (.host bytes) → (bytes.length : Int) ≤ offMax)
    (known : toTebakoPath s.globals.cwd path = some p)
    (opened : s.openInput env fuel path dup = some (some input, table))
    (sized : input.size table = some size)
    (ran : Returns (copyBody (input.read s.globals.memfsTable) host.write) ⟨(table, 0), size, [], 0⟩ c) :
    ∃ file, s.Leads env path file ∧ (c.left = 0 → c.written = file.bytes contents) ∧
      (file.ReadsWhole contents → c.left = 0) := by
  have world : toTebakoPath (s.world env).cwd path = some p := known
  have range : offMax < 2 ^ 64 := by decide
  rcases openInput_cases known opened with ⟨vfd, st, rfl, stat, rfl⟩ | ⟨lnk, st, bytes, rfl, stat, there⟩
  · obtain ⟨memfs, pi, rest, count, ends⟩ := EndsAt.of_stat sound world stat
    obtain ⟨own, held⟩ := sound.own _ _ _ _ _ ends
    have serves := served _ _ held
    obtain ⟨attr, attributes, same⟩ := Memfs.getattr_cases own
    obtain ⟨within, bounded⟩ := serves.size attributes
    obtain rfl : attr.size = size := by
      simpa [DlInput.size, FdTable.fstat, same] using sized
    have start : CopiedSoFar (OpenAt vfd st) (contents memfs.fs pi.inodeNum) attr.size
        ⟨(Std.ExtTreeMap.insert s.globals.fdTable vfd ⟨st, 0, 0, vfd⟩, 0), attr.size, [], 0⟩ :=
      ⟨⟨_, Std.ExtTreeMap.getElem?_insert_self, rfl, rfl⟩, rfl, Nat.zero_le _, rfl⟩
    have bytesShort : (contents memfs.fs pi.inodeNum).length < 2 ^ 64 := by omega
    obtain ⟨all, whole⟩ := copied_of_returns (memfs_delivers serves held own bytesShort) succeed.write
      within (by omega) start ran
    refine ⟨_, .image ends, all, fun reads => ?_⟩
    exact whole (memfs_readable serves held own bytesShort reads.1) (reads.2 attr attributes)
  · obtain ⟨last, ends⟩ := EndsAt.of_stat_outside world stat
    have leads : s.Leads env path (.host bytes) := .host ends there
    have bounded := short bytes leads
    obtain rfl := Option.some.inj sized
    have start : CopiedSoFar HostAt bytes bytes.length ⟨(table, 0), bytes.length, [], 0⟩ :=
      ⟨rfl, rfl, Nat.zero_le _, rfl⟩
    obtain ⟨all, whole⟩ := copied_of_returns (host_delivers bytes) succeed.write (Nat.le_refl _)
      (by omega) start ran
    exact ⟨_, leads, all, fun _ => whole (host_readable bytes) rfl⟩

/-! ## One call of `map2file` -/

/-- What is on the disk stays as it is. -/
def Disk.Grows (disk after : Disk) : Prop := ∀ (key : Str) (bytes : List UInt8),
  disk[key]? = some bytes → after[key]? = some bytes

theorem Disk.Grows.insert {key : Str} {bytes : List UInt8}
    (free : disk[key]? = none ∨ disk[key]? = some bytes) :
    disk.Grows (Std.ExtTreeMap.insert disk key bytes) := by
  intro other held there
  rw [getElem?_insert_iff]
  by_cases same : other = key
  · subst same
    rcases free with none | own
    · cases none.symm.trans there
    · exact .inl ⟨rfl, Option.some.inj (own.symm.trans there)⟩
  · exact .inr ⟨same, there⟩

/-- Only files of the host and the table of copies have been changed. -/
structure DlState.Extends (s after : DlState) : Prop where
  memfsTable : after.globals.memfsTable = s.globals.memfsTable
  mountTable : after.globals.mountTable = s.globals.mountTable
  cwd : after.globals.cwd = s.globals.cwd
  disk : s.disk.Grows after.disk

/-- The lookup of a path does not depend on the files of the host. -/
theorem EndsAt.of_same {twin : World} (memfsTable : twin.memfsTable = w.memfsTable)
    (mountTable : twin.mountTable = w.mountTable) (cwd : twin.cwd = w.cwd)
    (ends : EndsAt w path last resolved) : EndsAt twin path last resolved := by
  cases w
  cases twin
  cases memfsTable
  cases mountTable
  cases cwd
  exact ends

theorem DlState.Extends.endsAt (extended : s.Extends after) (ends : EndsAt (s.world env) path last resolved) :
    EndsAt (after.world env) path last resolved :=
  @EndsAt.of_same (s.world env) path last resolved (after.world env) extended.memfsTable
    extended.mountTable extended.cwd ends

theorem DlState.Extends.leads (extended : s.Extends after) (leads : s.Leads env path file) :
    after.Leads env path file := by
  cases leads with
  | image ends => exact .image (extended.endsAt ends)
  | host ends there => exact .host (extended.endsAt ends) (extended.disk _ _ there)

theorem DlState.Extends.holdsCopy (extended : s.Extends after) (holds : s.HoldsCopy env contents path name) :
    after.HoldsCopy env contents path name := by
  obtain ⟨file, leads, there⟩ := holds
  exact ⟨file, extended.leads leads, extended.disk _ _ there⟩

theorem LeadsTo.known (leads : LeadsTo w disk path file) : ∃ p, toTebakoPath w.cwd path = some p := by
  cases leads with
  | image ends =>
      obtain ⟨p, _, known, _⟩ := ends
      exact ⟨p, known⟩
  | host ends _ =>
      obtain ⟨p, _, known, _⟩ := ends
      exact ⟨p, known⟩

/-- The bytes that the loop has written, and what the host has under the name
of the copy then. -/
theorem written_over {written held : List UInt8} (ready : s.Ready env contents path)
    (found : s.disk[(mapName env.dlTmpdir path).onDisk]?.getD [] = held)
    (made : ∀ file, s.Leads env path file → written = file.bytes contents) :
    s.disk[(mapName env.dlTmpdir path).onDisk]? = none ∧ written ++ held.drop written.length = written ∨
      s.disk[(mapName env.dlTmpdir path).onDisk]? = some written ∧
        written ++ held.drop written.length = written := by
  rcases ready.free with none | ⟨file, leads, _, there⟩
  · left
    rw [none, Option.getD_none] at found
    exact ⟨none, by rw [← found, List.drop_nil, List.append_nil]⟩
  · right
    obtain rfl := made file leads
    rw [there, Option.getD_some] at found
    exact ⟨there, by rw [← found, List.drop_length, List.append_nil]⟩

/-- What a call leaves behind for a path that was not in the table. -/
theorem maps_extends (served : s.globals.memfsTable.Served contents) (succeed : host.Succeed)
    (ready : s.Ready env contents path) (maps : Maps env host s path name after) :
    s.Extends after ∧ (after.dltable = s.dltable ∧ name = .empty ∨
      after.dltable = Std.ExtTreeMap.insert s.dltable path.chars name ∧ name = mapName env.dlTmpdir path ∧
        (toTebakoPath s.globals.cwd path ≠ none → after.HoldsCopy env contents path name)) := by
  cases maps with
  | refused table errno => exact ⟨⟨rfl, rfl, rfl, fun _ _ there => there⟩, .inl ⟨rfl, rfl⟩⟩
  | @copied fuel size input table c opened sized ran =>
      have made : ∀ p, toTebakoPath s.globals.cwd path = some p → ∃ file, s.Leads env path file ∧
          (c.left = 0 → c.written = file.bytes contents) ∧ (file.ReadsWhole contents → c.left = 0) :=
        fun p known => copied_file served succeed ready.sound ready.short known opened sized ran
      by_cases done : c.left = 0
      · have bytes : ∀ file, s.Leads env path file → c.written = file.bytes contents := by
          intro file leads
          obtain ⟨p, known⟩ := LeadsTo.known leads
          obtain ⟨other, same, all, _⟩ := made p known
          rw [all done, LeadsTo.unique same leads]
        have replaced := written_over ready rfl bytes
        have whole := replaced.elim And.right And.right
        have extended : s.Extends ((s.withFds (input.close c.source.1)).finish
            (mapName env.dlTmpdir path) path c).2 := by
          simp only [DlState.finish, done, ↓reduceIte, DlState.withFds, whole]
          exact ⟨rfl, rfl, rfl, Disk.Grows.insert (replaced.imp And.left And.left)⟩
        refine ⟨extended, .inr ?_⟩
        simp only [DlState.finish, done, ↓reduceIte, DlState.withFds, whole] at extended ⊢
        refine ⟨trivial, trivial, fun known => ?_⟩
        obtain ⟨p, known⟩ := Option.ne_none_iff_exists'.mp known
        obtain ⟨file, leads, _⟩ := made p known
        refine ⟨file, extended.leads leads, ?_⟩
        rw [bytes file leads]
        exact Std.ExtTreeMap.getElem?_insert_self
      · have absent : (mapName env.dlTmpdir path).onDisk ∉ s.disk := by
          rcases ready.free with none | ⟨file, leads, reads, _⟩
          · exact fun present => by
              obtain ⟨bytes, there⟩ := exists_of_mem present
              cases none.symm.trans there
          · obtain ⟨p, known⟩ := LeadsTo.known leads
            obtain ⟨other, same, _, finishes⟩ := made p known
            exact absurd (finishes (LeadsTo.unique leads same ▸ reads)) done
        simp only [DlState.finish, done, ↓reduceIte, DlState.withFds, DlState.fail, erase_of_not_mem absent]
        exact ⟨⟨rfl, rfl, rfl, fun _ _ there => there⟩, .inl ⟨trivial, trivial⟩⟩

theorem map2file_coherent (coherent : s.Coherent env contents) (succeed : host.Succeed)
    (ready : path.chars ∉ s.dltable → s.Ready env contents path)
    (done : s.map2file env fuel host path = some (name, after)) :
    after.Coherent env contents ∧
      (isTebakoPath path = true → name.chars ≠ [] → after.HoldsCopy env contents path name) := by
  cases entry : s.dltable[path.chars]? with
  | some there =>
      rw [map2file_of_cached entry] at done
      cases done
      exact ⟨coherent, fun known _ => coherent.copies path name known entry⟩
  | none =>
      have uncached : path.chars ∉ s.dltable := by
        intro present
        obtain ⟨there, found⟩ := exists_of_mem present
        cases entry.symm.trans found
      obtain ⟨extended, outcome⟩ :=
        maps_extends coherent.served succeed (ready uncached) (maps_of_map2file entry done)
      have served : after.globals.memfsTable.Served contents := by
        rw [extended.memfsTable]
        exact coherent.served
      rcases outcome with ⟨same, rfl⟩ | ⟨inserted, rfl, holds⟩
      · refine ⟨⟨served, same ▸ coherent.names, fun other there known found => ?_⟩,
          fun _ named => absurd rfl named⟩
        rw [same] at found
        exact extended.holdsCopy (coherent.copies other there known found)
      · have copy : isTebakoPath path = true →
            after.HoldsCopy env contents path (mapName env.dlTmpdir path) := by
          intro known
          refine holds ?_
          rw [toTebakoPath_of_isTebakoPath known]
          simp
        have entries : ∀ (other there : CString), after.dltable[other.chars]? = some there →
            path = other ∧ there = mapName env.dlTmpdir path ∨ s.dltable[other.chars]? = some there := by
          intro other there found
          rw [inserted] at found
          rcases getElem?_insert_iff.mp found with ⟨same, own⟩ | ⟨_, before⟩
          · exact .inl ⟨CString.ext same.symm, own.symm⟩
          · exact .inr before
        refine ⟨⟨served, fun other there found => ?_, fun other there known found => ?_⟩, fun known _ => copy known⟩
        · rcases entries other there found with ⟨rfl, named⟩ | before
          · exact named
          · exact coherent.names other there before
        · rcases entries other there found with ⟨rfl, rfl⟩ | before
          · exact copy known
          · exact extended.holdsCopy (coherent.copies other there known before)

/-! ## Mounting -/

section Mounting

variable {loader : Loader} {table : MemfsTable} {index : UInt32} {memfs : Memfs} {g : Globals}
variable {parsers : OptionParsers} {imageOffset : Option CString}

theorem unloaded_serves (bytes : UInt32 → List UInt8) : Dwarfs.unloaded.Serves bytes where
  read ran := by cases ran
  size ran := by cases ran

theorem load_serves (serves : loader.Serves contents) (held : memfs.fs.Serves (contents memfs.fs)) :
    (memfs.load loader imageOffset).2.fs.Serves (contents (memfs.load loader imageOffset).2.fs) := by
  unfold Memfs.load
  split
  · exact held
  · rename_i ready parsed
    split
    · rw [Memfs.setImageOffsetStr_fs parsed]
      exact held
    · exact serves _ _ _ _ _ ‹_›

theorem MemfsTable.Served.insert (served : table.Served contents) (held : memfs.fs.Serves (contents memfs.fs)) :
    MemfsTable.Served contents (Std.ExtTreeMap.insert table index memfs) := by
  intro other found there
  rcases getElem?_insert_iff.mp there with ⟨_, own⟩ | ⟨_, before⟩
  · cases own
    exact held
  · exact served other found before

theorem MemfsTable.Served.insertIfNew (served : table.Served contents)
    (held : memfs.fs.Serves (contents memfs.fs)) :
    MemfsTable.Served contents (Std.ExtTreeMap.insertIfNew table index memfs) := by
  intro other found there
  rw [Std.ExtTreeMap.getElem?_insertIfNew] at there
  split at there
  · cases there
    exact held
  · exact served other found there

theorem MemfsTable.Served.erase (served : table.Served contents) :
    MemfsTable.Served contents (Std.ExtTreeMap.erase table index) := by
  intro other found there
  exact served other found (getElem?_erase_iff.mp there).2

theorem MemfsTable.Served.load (served : table.Served contents) (serves : loader.Serves contents) :
    (table.load loader imageOffset index).2.Served contents := by
  cases held : table[index]? with
  | none => simpa only [MemfsTable.load, held] using served
  | some memfs =>
      simp only [MemfsTable.load, held, modify_of_getElem? held]
      exact served.insert (load_serves serves (served index memfs held))

theorem rootStep_served (op : RootOp) (serves : loader.Serves contents)
    (served : g.memfsTable.Served contents) : (rootStep parsers loader op g).2.memfsTable.Served contents := by
  cases op with
  | mountRoot texts image =>
      cases set : setOptions (texts.setters parsers) g.options with
      | mk done options =>
          cases done with
          | false => simpa only [rootStep, mountRootMemfs, set] using served
          | true =>
              simp only [rootStep, mountRootMemfs_of_set set]
              split
              · exact served.erase.insert (load_serves serves (unloaded_serves _))
              · exact served.erase
  | mountMemfs image parentInode folder =>
      have fresh : (loadMemfs loader image g).2.memfsTable.Served contents := by
        have inserted : MemfsTable.Served contents
            (g.memfsTable.insertAuto (makeMemfs g.options image.data image.size)).2 := by
          simp only [MemfsTable.insertAuto]
          split
          · exact served
          · exact served.insertIfNew (unloaded_serves _)
        simp only [loadMemfs]
        split
        · exact (inserted.load serves).erase
        · exact inserted.load serves
      simp only [rootStep, mountMemfs]
      split <;> exact fresh
  | mountPath parentInode folder target => exact served
  | unmountRoot =>
      intro index memfs there
      simp [rootStep, unmountRootMemfs] at there

end Mounting

/-! ## Runs -/

theorem initial_coherent (disk : Disk) : (DlState.initial disk).Coherent env contents where
  served index memfs there := by simp [DlState.initial, Globals.initial] at there
  names path name there := by simp [DlState.initial] at there
  copies path name _ there := by simp [DlState.initial] at there

/-- A call that hands a path of the memfs to `map2file`, whatever it makes of the name. -/
theorem mapping_coherent {named : Option CString} {answer : CString × DlState → DlAnswer}
    (coherent : s.Coherent env contents) (permitted : s.PermitsMapping env contents host named)
    (known : named = some path) (inside : toTebakoPath s.globals.cwd path = some p) :
    (finished s ((s.map2file env fuel host p).map fun result => (answer result, result.2))).2.Coherent
      env contents := by
  cases done : s.map2file env fuel host p with
  | none => exact coherent
  | some result => exact (map2file_coherent coherent permitted.1 (permitted.2 path p known inside) done).1

theorem dlStep_coherent (op : DlOp) (serves : env.loader.Serves contents)
    (coherent : s.Coherent env contents) (permitted : s.Permits env contents op) :
    (dlStep env op s).2.Coherent env contents := by
  cases op with
  | mounting op =>
      refine ⟨rootStep_served op serves coherent.served, coherent.names, fun path name known there => ?_⟩
      obtain ⟨file, leads, held⟩ := coherent.copies path name known there
      obtain ⟨other, still, same⟩ := permitted path known (mem_of_getElem? there) file leads
      exact ⟨other, still, same ▸ held⟩
  | dlopen fuel host named =>
      cases named with
      | none => exact coherent
      | some path =>
          cases inside : toTebakoPath s.globals.cwd path with
          | none => simpa only [dlStep, DlState.tebakoDlopen, inside, finished] using coherent
          | some p =>
              simp only [dlStep, DlState.tebakoDlopen, inside]
              exact mapping_coherent coherent permitted rfl inside
  | dlmap2file fuel host named =>
      cases named with
      | none => exact coherent
      | some path =>
          cases inside : toTebakoPath s.globals.cwd path with
          | none => simpa only [dlStep, DlState.tebakoDlmap2file, inside, finished] using coherent
          | some p =>
              simp only [dlStep, DlState.tebakoDlmap2file, inside]
              exact mapping_coherent coherent permitted rfl inside

theorem reached_coherent (serves : env.loader.Serves contents)
    (reached : Machine.Reaches (dlStep env) (fun s op => s.Permits env contents op) (.initial disk) s) :
    s.Coherent env contents :=
  reached.invariant (initial_coherent disk) fun _ op coherent permitted =>
    dlStep_coherent op serves coherent permitted

/-- A copy is handed out again whatever the path leads to by then. -/
theorem stale_of_not_keeps (coherent : s.Coherent env contents) (broken : ¬ s.Keeps env contents after)
    (dltable : after.dltable = s.dltable) (disk : after.disk = s.disk) :
    ∃ path, isTebakoPath path = true ∧
      ¬ after.HoldsCopy env contents path (mapName env.dlTmpdir path) ∧ ∀ fuel host,
        after.map2file env fuel host path = some (mapName env.dlTmpdir path, after) := by
  simp only [DlState.Keeps, not_forall, not_exists, not_and] at broken
  obtain ⟨path, known, present, file, leads, lost⟩ := broken
  obtain ⟨name, found⟩ := exists_of_mem present
  obtain rfl := coherent.names path name found
  obtain ⟨copied, before, there⟩ := coherent.copies path _ known found
  obtain rfl := LeadsTo.unique leads before
  refine ⟨path, known, ?_, fun fuel host => map2file_of_cached (dltable ▸ found)⟩
  intro copy
  obtain ⟨other, leads, held⟩ := copy
  rw [disk, there] at held
  exact lost other leads (Option.some.inj held).symm

/-- A copy that `map2file` hands out for a path of the memfs holds what the path
leads to, while mounting and unmounting change nothing about that. Where they
do, the copy is still handed out. -/
theorem mapped_copy_current (env : DlEnv) (contents : Dwarfs → UInt32 → List UInt8) (disk : Disk)
    (s : DlState) (serves : env.loader.Serves contents)
    (reached : Machine.Reaches (dlStep env) (fun s op => s.Permits env contents op) (.initial disk) s) :
    (∀ path fuel host name after, isTebakoPath path = true → host.Succeed →
      (path.chars ∉ s.dltable → s.Ready env contents path) →
      s.map2file env fuel host path = some (name, after) → name.chars ≠ [] →
      after.HoldsCopy env contents path name) ∧
    ∀ op, ¬ s.Permits env contents (.mounting op) →
      ∃ path, isTebakoPath path = true ∧
        ¬ (dlStep env (.mounting op) s).2.HoldsCopy env contents path (mapName env.dlTmpdir path) ∧
        ∀ fuel host, (dlStep env (.mounting op) s).2.map2file env fuel host path =
          some (mapName env.dlTmpdir path, (dlStep env (.mounting op) s).2) := by
  have coherent := reached_coherent serves reached
  constructor
  · intro path fuel host name after known succeed ready done named
    exact (map2file_coherent coherent succeed ready done).2 known named
  · intro op broken
    exact stale_of_not_keeps coherent broken rfl rfl

/-! ## One library -/

/-- An image with the file `f` in its root directory. -/
def libraryImage (bytes : List UInt8) : Dwarfs :=
  { Dwarfs.ofEntries [⟨0, cStr ['f'], 0o100644, .empty⟩] with
    getattr := fun view =>
      if view.inodeNum = 0 then .ok ⟨0o040755, 0⟩
      else if view.inodeNum = 1 then .ok ⟨0o100644, bytes.length⟩
      else .error .EINVAL
    read := fun inode size offset =>
      if inode = 1 then .ok ((bytes.drop offset).take size) else .error .EINVAL }

/-- An image is the library that is in it. -/
def libraryLoader : Loader where
  parseOffset _ := none
  openImage data _ _ _ := if (data.length : Int) ≤ offMax then some (libraryImage data) else none

def libraryEnv : DlEnv where
  parsers := noParsers
  loader := libraryLoader
  dlTmpdir := cStr ['/', 't']
  hostStat _ _ := .error .ENOENT

def wholeFile (fs : Dwarfs) (inode : UInt32) : List UInt8 :=
  match fs.getattr ⟨inode⟩ with
  | .error _ => []
  | .ok attr =>
      match fs.read inode attr.size 0 with
      | .error _ => []
      | .ok got => got

theorem wholeFile_library (bytes : List UInt8) (inode : UInt32) :
    wholeFile (libraryImage bytes) inode = if inode = 1 then bytes else [] := by
  unfold wholeFile libraryImage
  simp only
  split
  · rename_i failed
    split at failed
    · cases failed
    · split at failed
      · cases failed
      · rw [if_neg ‹_›]
  · rename_i attr got
    split at got
    · rename_i root
      rw [if_neg (by rw [root]; decide), if_neg (by rw [root]; decide)]
    · split at got
      · rename_i file
        cases got
        rw [if_pos file, if_pos file, List.drop_zero, List.take_length]
      · cases got

theorem library_serves : libraryEnv.loader.Serves wholeFile := by
  intro data size opts root fs opened
  simp only [libraryEnv, libraryLoader] at opened
  split at opened
  · rename_i short
    cases opened
    constructor
    · intro inode size offset got ran
      rw [wholeFile_library]
      simp only [libraryImage] at ran
      split at ran
      · rename_i file
        cases ran
        rw [if_pos file]
      · cases ran
    · intro view attr got
      rw [wholeFile_library]
      simp only [libraryImage] at got
      split at got
      · rename_i root
        cases got
        rw [if_neg (by rw [root]; decide)]
        exact ⟨Nat.le_refl _, by decide⟩
      · split at got
        · rename_i file
          cases got
          rw [if_pos file]
          exact ⟨Nat.le_refl _, short⟩
        · cases got
  · cases opened

def libraryRoot (bytes : List UInt8) : Memfs := { makeMemfs {} bytes 0 with fs := libraryImage bytes }

def libraryPath : CString := belowMountPoint ['f']

def libraryStat (bytes : List UInt8) : FileStat := ⟨1, 0o100644, bytes.length⟩

theorem library_ends {bytes : List UInt8} (root : w.memfsTable[(0 : UInt32)]? = some (libraryRoot bytes))
    (mountTable : w.mountTable = ∅) :
    EndsAt w libraryPath (.walk (libraryRoot bytes) ⟨1⟩ (libraryStat bytes) [], 0)
      (.inode (libraryStat bytes), 0) := by
  have known : isTebakoPath libraryPath = true := by decide
  have named : (cStr ['f']).chars ≠ [] := by decide
  have components : (cStr ['f']).components = [cStr ['f']] := by decide
  have directory : (libraryRoot bytes).find 0 = some ⟨0⟩ := by
    simp [libraryRoot, libraryImage, Memfs.find, Dwarfs.ofEntries, makeMemfs]
  have child : (libraryRoot bytes).findChild 0 (cStr ['f']) = some ⟨1⟩ := by
    simp [libraryRoot, libraryImage, Memfs.findChild, Dwarfs.ofEntries, makeMemfs]
  have entered : findBody w true (.start (libraryRoot bytes) 0 (cStr ['f'])) =
      .next (.walk (libraryRoot bytes) ⟨0⟩ ⟨0, 0o040755, 0⟩ [cStr ['f']]) := by
    have passed : (libraryRoot bytes).processInode ⟨0⟩ true [cStr ['f']] =
        .ok (⟨0, 0o040755, 0⟩, .passed [cStr ['f']]) := processInode_file rfl rfl
    simp only [findBody, directory, components, passed]
  have found : findBody w true (.walk (libraryRoot bytes) ⟨0⟩ ⟨0, 0o040755, 0⟩ [cStr ['f']]) =
      .next (.walk (libraryRoot bytes) ⟨1⟩ (libraryStat bytes) []) := by
    have number : (libraryRoot bytes).reported ⟨0⟩ = 0 := rfl
    have file : (libraryStat bytes).isLnk = false :=
      show ((0o100644 : UInt32) &&& fileTypeMask == 0o120000) = false by decide
    have passed : (libraryRoot bytes).processInode ⟨1⟩ true [cStr ['f']] =
        .ok (libraryStat bytes, .passed [cStr ['f']]) := processInode_file rfl file
    simp only [findBody, named, ↓reduceIte, mountTable, Std.ExtTreeMap.getElem?_empty, number, child, passed,
      List.tail_cons]
  refine ⟨libraryPath, .start (libraryRoot bytes) 0 (cStr ['f']), ?_, ?_, ?_, rfl⟩
  · rw [toTebakoPath_of_isTebakoPath known]
    decide
  · simp only [Request.start, root]
    rfl
  · exact .head (nested_next entered) (.single (nested_next found))

def libraryMounted (bytes : List UInt8) : Globals :=
  { Globals.initial with memfsTable := (∅ : MemfsTable).insertIfNew 0 (libraryRoot bytes), cwd := .init }

def librarySource (bytes : List UInt8) : ImageSource := ⟨bytes, 0, none⟩

def libraryCopy : CString := mapName libraryEnv.dlTmpdir libraryPath

/-- The image is mounted, nothing has been copied yet. -/
def beforeCopy (bytes : List UInt8) : DlState := { DlState.initial ∅ with globals := libraryMounted bytes }

def libraryHost : HostAnswers := ⟨true, 5, true, fun _ => .all⟩

def afterCopy : DlState where
  globals := { libraryMounted [1] with
    fdTable := Std.ExtTreeMap.erase (Std.ExtTreeMap.insert (∅ : FdTable) 5 ⟨libraryStat [1], 1, 0, 5⟩) 5 }
  dltable := Std.ExtTreeMap.insert ∅ libraryPath.chars libraryCopy
  dlerror := none
  disk := Std.ExtTreeMap.insert (∅ : Disk) libraryCopy.onDisk [1]

theorem library_copied : (beforeCopy [1]).map2file libraryEnv 9 libraryHost libraryPath =
    some (libraryCopy, afterCopy) := by
  rfl

theorem library_mounted :
    mountRootMemfs noParsers libraryLoader {} (librarySource [1]) .initial = (0, libraryMounted [1]) := by
  have set : setOptions (OptionTexts.setters noParsers {}) Globals.initial.options = (true, {}) := by
    decide +kernel
  rw [mountRootMemfs_of_set set, if_pos (by rfl)]
  rfl

theorem libraryHost_succeed : libraryHost.Succeed := ⟨rfl, rfl, fun _ => rfl⟩

theorem step_mounted : (dlStep libraryEnv (.mounting (.mountRoot {} (librarySource [1]))) (.initial ∅)).2 =
    beforeCopy [1] := by
  simp only [dlStep, rootStep, DlState.initial, libraryEnv, library_mounted, beforeCopy]

theorem step_copied : (dlStep libraryEnv (.dlmap2file 9 libraryHost (some libraryPath)) (beforeCopy [1])).2 =
    afterCopy := by
  have inside : toTebakoPath (beforeCopy [1]).globals.cwd libraryPath = some libraryPath := by decide
  simp only [dlStep, DlState.tebakoDlmap2file, inside, library_copied, Option.map_some, finished]

def libraryRemounted (bytes : List UInt8) : DlState :=
  (dlStep libraryEnv (.mounting (.mountRoot {} (librarySource bytes))) afterCopy).2

theorem libraryRemounted_tables {bytes : List UInt8}
    (loaded : ((makeMemfs {} bytes 0).load libraryLoader none).1 = 0)
    (root : ((makeMemfs {} bytes 0).load libraryLoader none).2 = libraryRoot bytes) :
    (libraryRemounted bytes).globals.memfsTable[(0 : UInt32)]? = some (libraryRoot bytes) ∧
      (libraryRemounted bytes).globals.mountTable = ∅ := by
  have set : setOptions (OptionTexts.setters noParsers {}) afterCopy.globals.options = (true, {}) := by
    decide +kernel
  have mounted := @mountRootMemfs_of_set libraryLoader (librarySource bytes) afterCopy.globals noParsers {} {} set
  rw [librarySource, if_pos loaded, root] at mounted
  simp only [libraryRemounted, dlStep, rootStep, libraryEnv, librarySource, mounted]
  refine ⟨Std.ExtTreeMap.getElem?_insert_self, ?_⟩
  exact ((releaseRoot_tables _).2.mpr (.inl (by simp [afterCopy, libraryMounted]))).1

/-- The library is the only file of its path. -/
theorem library_leads {bytes : List UInt8} (root : s.globals.memfsTable[(0 : UInt32)]? = some (libraryRoot bytes))
    (mountTable : s.globals.mountTable = ∅) :
    s.Leads env libraryPath (.image (libraryImage bytes) 1) ∧
      ∀ file, s.Leads env libraryPath file → file = .image (libraryImage bytes) 1 := by
  have leads : s.Leads env libraryPath (.image (libraryImage bytes) 1) := .image (library_ends root mountTable)
  exact ⟨leads, fun file other => LeadsTo.unique other leads⟩

theorem libraryMounted_root (bytes : List UInt8) :
    (libraryMounted bytes).memfsTable[(0 : UInt32)]? = some (libraryRoot bytes) := by
  rw [libraryMounted, Std.ExtTreeMap.getElem?_insertIfNew, if_pos ⟨by simp, by simp⟩]

theorem library_ready : (beforeCopy [1]).Ready libraryEnv wholeFile libraryPath := by
  have root : (beforeCopy [1]).globals.memfsTable[(0 : UInt32)]? = some (libraryRoot [1]) :=
    libraryMounted_root [1]
  have ends := @library_ends ((beforeCopy [1]).world libraryEnv) [1] root rfl
  refine ⟨⟨fun last resolved other => ?_, fun memfs pi st rest count other => ?_⟩, fun bytes leads => ?_, .inl ?_⟩
  · obtain ⟨_, rfl⟩ := other.unique ends
    refine ⟨fun lnk st same => ?_, fun lnk same => ?_⟩
    · cases same
    · cases same
  · cases (other.unique ends).1
    exact ⟨rfl, root⟩
  · cases (library_leads root rfl).2 _ leads
  · simp [beforeCopy, DlState.initial]

/-- The same library is mounted again. -/
theorem library_kept : afterCopy.Permits libraryEnv wholeFile (.mounting (.mountRoot {} (librarySource [1]))) := by
  intro path _ present file leads
  have same : path = libraryPath := by
    rw [afterCopy, mem_insert_iff] at present
    rcases present with here | none
    · exact CString.ext here
    · simp at none
  subst same
  obtain rfl := (library_leads (libraryMounted_root [1]) rfl).2 file leads
  obtain ⟨root, mountTable⟩ := @libraryRemounted_tables [1] (by rfl) (by rfl)
  exact ⟨_, (library_leads root mountTable).1, rfl⟩

theorem library_copy_current :
    (libraryRemounted [1]).HoldsCopy libraryEnv wholeFile libraryPath libraryCopy := by
  have reached : Machine.Reaches (dlStep libraryEnv) (fun s op => s.Permits libraryEnv wholeFile op)
      (.initial ∅) (libraryRemounted [1]) := by
    refine .step _ ?_ library_kept
    rw [← step_copied]
    refine .step _ ?_ ⟨libraryHost_succeed, fun name p named inside _ => ?_⟩
    · rw [← step_mounted]
      refine .step _ .start fun path _ present => ?_
      simp [DlState.initial] at present
    · cases named
      obtain rfl : libraryPath = p := Option.some.inj (inside.symm.trans (by decide)).symm
      exact library_ready
  have cached : (libraryRemounted [1]).dltable[libraryPath.chars]? = some libraryCopy :=
    Std.ExtTreeMap.getElem?_insert_self
  exact (mapped_copy_current libraryEnv wholeFile ∅ (libraryRemounted [1]) library_serves reached).1 libraryPath
    9 libraryHost libraryCopy (libraryRemounted [1]) (by decide) libraryHost_succeed
    (fun absent => absurd (mem_of_getElem? cached) absent) (map2file_of_cached cached) (by decide)

def DlOp.Succeeds : DlOp → Prop
  | .mounting _ => True
  | .dlopen _ host _ => host.Succeed
  | .dlmap2file _ host _ => host.Succeed

/-- The root image is replaced by another one. The copy that was made before is
handed out for the new library of the same name. -/
theorem remounted_library_stale : ¬ ∀ env contents disk s, env.loader.Serves contents →
    Machine.Reaches (dlStep env) (fun _ op => op.Succeeds) (.initial disk) s →
    ∀ path fuel host name after, isTebakoPath path = true → host.Succeed →
      s.map2file env fuel host path = some (name, after) → name.chars ≠ [] →
      after.HoldsCopy env contents path name := by
  intro always
  have reached : Machine.Reaches (dlStep libraryEnv) (fun _ op => op.Succeeds) (.initial ∅)
      (libraryRemounted [2]) := by
    refine .step _ ?_ trivial
    rw [← step_copied]
    refine .step _ ?_ libraryHost_succeed
    rw [← step_mounted]
    exact .step _ .start trivial
  have cached : (libraryRemounted [2]).dltable[libraryPath.chars]? = some libraryCopy :=
    Std.ExtTreeMap.getElem?_insert_self
  obtain ⟨file, leads, held⟩ := always libraryEnv wholeFile ∅ (libraryRemounted [2]) library_serves reached
    libraryPath 9 libraryHost libraryCopy (libraryRemounted [2]) (by decide) libraryHost_succeed
    (map2file_of_cached cached) (by decide)
  obtain ⟨root, mountTable⟩ := @libraryRemounted_tables [2] (by rfl) (by rfl)
  obtain rfl := (library_leads root mountTable).2 file leads
  have old : (libraryRemounted [2]).disk[libraryCopy.onDisk]? = some [1] := Std.ExtTreeMap.getElem?_insert_self
  rw [old, LibraryFile.bytes, wholeFile_library] at held
  cases held

end Tebako
