import Tebako.DlCache

namespace Tebako

open Data Data.Loop Data.LexicalPath Data.OrderedMap

/-! Copies of libraries, where the host may write less than it is given.

What is left is counted down by what has been read, so that the loop takes a
copy as whole once the last chunk has been read, however much of it is written. -/

theorem result_of_full {answer : WriteAnswer} {bytes : List UInt8}
    (full : (answer.result bytes).1 = bytes.length) : (answer.result bytes).2 = bytes := by
  cases answer with
  | all => rfl
  | only count =>
      simp only [WriteAnswer.result, List.length_take, Int.natCast_inj] at full ⊢
      exact List.take_of_length_le (by omega)
  | failed =>
      simp only [WriteAnswer.result] at full
      omega

theorem result_begins (answer : WriteAnswer) (bytes : List UInt8) : (answer.result bytes).2 <+: bytes := by
  cases answer with
  | all => exact List.prefix_refl bytes
  | only count => exact List.take_prefix count bytes
  | failed => exact List.nil_prefix

/-- The bytes of the file that one `tebako_read` gives. -/
def piece (bytes : List UInt8) (chunk : Nat) : List UInt8 := (bytes.drop (chunk * bsize)).take bsize

def WritesAll (write : Nat → WriteAnswer) (bytes : List UInt8) (chunk : Nat) : Prop :=
  ((write chunk).result (piece bytes chunk)).1 = (piece bytes chunk).length

def lastChunk (bytes : List UInt8) : Nat := (bytes.length - 1) / bsize

/-- What has been written when the last chunk has been. -/
def copied (write : Nat → WriteAnswer) (bytes : List UInt8) : List UInt8 :=
  bytes.take (lastChunk bytes * bsize) ++
    ((write (lastChunk bytes)).result (piece bytes (lastChunk bytes))).2

/-- All chunks are read, and all but the last one are written as a whole. -/
def TakenAsWhole (write : Nat → WriteAnswer) (fails : Nat → Prop) (bytes : List UInt8) : Prop :=
  ∀ chunk, chunk * bsize < bytes.length → ¬ fails (chunk * bsize) ∧
    ((chunk + 1) * bsize < bytes.length → WritesAll write bytes chunk)

section Loop

variable {σ : Type u} {read : σ → CallResult × σ} {write : Nat → WriteAnswer} {stands : σ → Nat → Prop}
variable {fails : Nat → Prop} {bytes : List UInt8} {chunk : Nat} {c after : Copying σ}

/-- A source that stands somewhere gives the bytes from there on, unless it fails. -/
def Reads (read : σ → CallResult × σ) (stands : σ → Nat → Prop) (fails : Nat → Prop) (bytes : List UInt8) :
    Prop :=
  ∀ source pos, stands source pos → pos < bytes.length →
    (fails pos ∧ (read source).1.ret ≤ 0) ∨
      ¬ fails pos ∧ (read source).1.ret = ((bytes.drop pos).take bsize).length ∧
        (read source).1.stored = (bytes.drop pos).take bsize ∧
        stands (read source).2 (pos + ((bytes.drop pos).take bsize).length)

/-- So many chunks have been read and written, of which the last one may not be full. -/
structure CopiedChunks (write : Nat → WriteAnswer) (stands : σ → Nat → Prop) (fails : Nat → Prop)
    (bytes : List UInt8) (chunk : Nat) (c : Copying σ) : Prop where
  stands : stands c.source (min (chunk * bsize) bytes.length)
  left : c.left = bytes.length - chunk * bsize
  written : c.written = bytes.take (chunk * bsize)
  count : c.chunk = chunk
  taken : ∀ earlier < chunk, ¬ fails (earlier * bsize) ∧ WritesAll write bytes earlier

theorem piece_length : (piece bytes chunk).length = min bsize (bytes.length - chunk * bsize) := by
  rw [piece, List.length_take, List.length_drop]

theorem take_append_piece : bytes.take (chunk * bsize) ++ piece bytes chunk = bytes.take ((chunk + 1) * bsize) := by
  rw [piece, Nat.succ_mul, List.take_add]

theorem lastChunk_eq (inside : chunk * bsize < bytes.length) (last : bytes.length ≤ (chunk + 1) * bsize) :
    lastChunk bytes = chunk := by
  unfold lastChunk bsize at *
  omega

/-- Once all chunks have been written as a whole, the copy is one. -/
theorem copied_of_full (full : lastChunk bytes * bsize < bytes.length → WritesAll write bytes (lastChunk bytes)) :
    copied write bytes = bytes := by
  by_cases empty : bytes = []
  · subst empty
    have nothing := (result_begins (write (lastChunk [])) []).length_le
    simpa [copied, piece] using nothing
  · have present := List.length_pos_iff.mpr empty
    have inside : lastChunk bytes * bsize < bytes.length := by
      unfold lastChunk bsize
      omega
    have whole : bytes.length ≤ (lastChunk bytes + 1) * bsize := by
      unfold lastChunk bsize
      omega
    rw [copied, result_of_full (full inside), take_append_piece, List.take_of_length_le whole]

/-- A round that reads its chunk goes on if all of it is written. -/
theorem copyBody_piece (reads : Reads read stands fails bytes) (short : bytes.length < 2 ^ 64)
    (so : CopiedChunks write stands fails bytes chunk c) (inside : chunk * bsize < bytes.length)
    (works : ¬ fails (chunk * bsize)) :
    ∃ after : Copying σ, stands after.source (min ((chunk + 1) * bsize) bytes.length) ∧
      after.left = bytes.length - (chunk + 1) * bsize ∧
      after.written = bytes.take (chunk * bsize) ++ ((write chunk).result (piece bytes chunk)).2 ∧
      after.chunk = chunk + 1 ∧
      (WritesAll write bytes chunk → copyBody read write c = .next after) ∧
      (¬ WritesAll write bytes chunk → copyBody read write c = .halt after) := by
  obtain ⟨here, left, written, count, taken⟩ := so
  rw [Nat.min_eq_left (Nat.le_of_lt inside)] at here
  have length := @piece_length bytes chunk
  rcases reads _ _ here inside with ⟨failed, _⟩ | ⟨_, ret, stored, next⟩
  · exact absurd failed works
  · change _ = ((piece bytes chunk).length : Int) at ret
    change _ = piece bytes chunk at stored
    change stands _ (_ + (piece bytes chunk).length) at next
    have more : ¬ c.left = 0 := by omega
    have some : ¬ (read c.source).1.ret ≤ 0 := by
      rw [ret, length]
      unfold bsize at *
      omega
    have whole : (read c.source).1.stored.take (read c.source).1.ret.toNat = piece bytes chunk := by
      rw [stored, ret, Int.toNat_natCast, List.take_length]
    have rest : sizeT (c.left - (read c.source).1.ret) = bytes.length - (chunk + 1) * bsize := by
      have cast : (sizeT (c.left - (read c.source).1.ret) : Int) = c.left - (read c.source).1.ret := by
        rw [ret, left]
        apply sizeT_cast <;> omega
      rw [ret, left, length] at cast
      rw [ret, left, length]
      unfold bsize at *
      omega
    refine ⟨⟨(read c.source).2, bytes.length - (chunk + 1) * bsize,
      bytes.take (chunk * bsize) ++ ((write chunk).result (piece bytes chunk)).2, chunk + 1⟩,
      ?_, rfl, rfl, rfl, fun full => ?_, fun part => ?_⟩
    · have stop : min ((chunk + 1) * bsize) bytes.length = chunk * bsize + (piece bytes chunk).length := by
        rw [length]
        unfold bsize at *
        omega
      rwa [stop]
    · simp only [copyBody, more, some, ↓reduceIte, whole, count, written, rest]
      exact if_pos (ret.trans full.symm)
    · simp only [copyBody, more, some, ↓reduceIte, whole, count, written, rest]
      exact if_neg fun same => part (same.symm.trans ret)

theorem chunk_le {other : Nat} (inside : other * bsize < bytes.length)
    (last : bytes.length ≤ (chunk + 1) * bsize) : other ≤ chunk := by
  by_contra behind
  have reached : (chunk + 1) * bsize ≤ other * bsize := Nat.mul_le_mul_right bsize (Nat.lt_of_not_le behind)
  omega

/-- It does not matter how much of the last chunk is written. -/
theorem takenAsWhole_of_last (taken : ∀ earlier < chunk, ¬ fails (earlier * bsize) ∧ WritesAll write bytes earlier)
    (works : ¬ fails (chunk * bsize)) (last : bytes.length ≤ (chunk + 1) * bsize) :
    TakenAsWhole write fails bytes := by
  intro other inside
  rcases Nat.lt_or_eq_of_le (chunk_le inside last) with before | rfl
  · exact ⟨(taken other before).1, fun _ => (taken other before).2⟩
  · exact ⟨works, fun more => absurd more (Nat.not_lt.mpr last)⟩

theorem takenAsWhole_of_ended (taken : ∀ earlier < chunk, ¬ fails (earlier * bsize) ∧ WritesAll write bytes earlier)
    (ended : bytes.length ≤ chunk * bsize) : TakenAsWhole write fails bytes := by
  intro other inside
  have before : other < chunk := by
    by_contra behind
    have reached := Nat.mul_le_mul_right bsize (Nat.le_of_not_lt behind)
    omega
  exact ⟨(taken other before).1, fun _ => (taken other before).2⟩

/-- The loop ends with nothing left if and only if all chunks are read and all
but the last one are written as a whole. -/
theorem copy_returns (reads : Reads read stands fails bytes) (short : bytes.length < 2 ^ 64)
    (so : CopiedChunks write stands fails bytes chunk c) :
    ∃ last, Returns (copyBody read write) c last ∧
      (last.left = 0 ↔ TakenAsWhole write fails bytes) ∧ (last.left = 0 → last.written = copied write bytes) := by
  generalize remains : bytes.length - chunk * bsize = room
  induction room using Nat.strongRecOn generalizing chunk c with
  | ind room ih =>
      by_cases inside : chunk * bsize < bytes.length
      · by_cases works : fails (chunk * bsize)
        · have left := so.left
          have more : ¬ c.left = 0 := by omega
          have here := so.stands
          rw [Nat.min_eq_left (Nat.le_of_lt inside)] at here
          rcases reads _ _ here inside with ⟨_, empty⟩ | ⟨fine, _⟩
          · have stopped : copyBody read write c = .halt { c with source := (read c.source).2 } := by
              simp only [copyBody, more, empty, ↓reduceIte]
            refine ⟨_, returns_of_halt stopped, iff_of_false more fun whole => ?_, fun none => absurd none more⟩
            exact (whole chunk inside).1 works
          · exact absurd works fine
        · obtain ⟨after, here, left, written, count, goes, stops⟩ := copyBody_piece reads short so inside works
          by_cases full : WritesAll write bytes chunk
          · have next : CopiedChunks write stands fails bytes (chunk + 1) after := by
              refine ⟨here, left, ?_, count, fun earlier below => ?_⟩
              · rw [written, result_of_full full, take_append_piece]
              · rcases Nat.lt_succ_iff_lt_or_eq.mp below with before | rfl
                · exact so.taken earlier before
                · exact ⟨works, full⟩
            have less : bytes.length - (chunk + 1) * bsize < room := by
              unfold bsize at *
              omega
            obtain ⟨last, returned, whole⟩ := ih _ less next rfl
            exact ⟨last, (returns_iff_of_next (goes full)).mpr returned, whole⟩
          · refine ⟨after, returns_of_halt (stops full), ?_, fun none => ?_⟩
            · by_cases last : (chunk + 1) * bsize < bytes.length
              · exact iff_of_false (by omega) fun whole => full ((whole chunk inside).2 last)
              · exact iff_of_true (by omega) (takenAsWhole_of_last so.taken works (Nat.le_of_not_lt last))
            · have same := @lastChunk_eq bytes chunk inside (by omega)
              rw [written, copied, same]
      · have none : c.left = 0 := by
          rw [so.left]
          omega
        have stopped : copyBody read write c = .halt c := by
          simp only [copyBody, none, ↓reduceIte]
        have ended := Nat.le_of_not_lt inside
        have whole := takenAsWhole_of_ended so.taken ended
        refine ⟨c, returns_of_halt stopped, iff_of_true none whole, fun _ => ?_⟩
        rw [so.written, List.take_of_length_le ended, copied_of_full fun before => ?_]
        exact (so.taken _ (Nat.lt_of_mul_lt_mul_right (Nat.lt_of_lt_of_le before ended))).2

end Loop

/-! ## Copies from an image -/

def ReadFails (fs : Dwarfs) (inode : UInt32) (pos : Nat) : Prop := ∃ errno, fs.read inode bsize pos = .error errno

theorem memfs_reads {memfsTable : MemfsTable} {memfs : Memfs} {pi : InodeView} {st : FileStat} {vfd : Int}
    {contents : UInt32 → List UInt8} (serves : memfs.fs.Serves contents)
    (held : memfsTable[getFsIndex st.ino.toUInt32.toUInt64]? = some memfs)
    (stat : memfs.getattr pi = .ok st) (short : (contents pi.inodeNum).length < 2 ^ 64) :
    Reads ((DlInput.memfs vfd).read memfsTable) (OpenAt vfd st) (ReadFails memfs.fs pi.inodeNum)
      (contents pi.inodeNum) := by
  intro source pos opened more
  obtain ⟨table, other⟩ := source
  obtain ⟨fd, there, rfl, rfl⟩ := opened
  simp only [DlInput.read, FdTable.read, there]
  by_cases failed : ReadFails memfs.fs pi.inodeNum fd.pos
  · left
    obtain ⟨errno, failure⟩ := id failed
    have answer : dwarfsInodeRead memfsTable fd.st.ino.toUInt32 bsize (offT fd.pos) = .error errno := by
      simp only [dwarfsInodeRead, held, Memfs.inodeRead, getattr_number stat,
        sizeT_offT (Nat.lt_trans more short), failure]
    rw [answer]
    exact ⟨failed, show (-1 : Int) ≤ 0 by decide⟩
  · right
    rcases inodeRead_served serves held stat (Nat.lt_trans more short) with ⟨errno, failure, _⟩ | served
    · exact absurd ⟨errno, failure⟩ failed
    · obtain ⟨length, present⟩ := chunk_length (contents pi.inodeNum) fd.pos
      rw [served]
      generalize ((contents pi.inodeNum).drop fd.pos).take bsize = got at length present ⊢
      have position : sizeT (fd.pos + got.length) = fd.pos + got.length := by
        have cast := @sizeT_cast (fd.pos + got.length) (by omega) (by omega)
        omega
      rw [if_pos (Int.natCast_pos.mpr (present more))]
      exact ⟨failed, rfl, rfl, _, Std.ExtTreeMap.getElem?_insert_self, rfl, position⟩

/-- The path leads to a file of an image. -/
structure FindsFile (env : DlEnv) (s : DlState) (path : CString) (memfs : Memfs) (pi : InodeView)
    (st : FileStat) : Prop where
  looked : ∃ fuel p, toTebakoPath s.globals.cwd path = some p ∧
    dwarfsStat (s.world env) fuel p true = some (.ok (.inode st))
  held : s.globals.memfsTable[getFsIndex st.ino.toUInt32.toUInt64]? = some memfs
  stat : memfs.getattr pi = .ok st

/-- The host makes way for a copy. -/
structure HostAnswers.LetsCopy (host : HostAnswers) : Prop where
  makesDirectories : host.makesDirectories = true
  dup : 0 ≤ host.dup
  opensOutput : host.opensOutput = true

/-- A name comes with the whole file, and no name with an error and nothing else. -/
structure MapsWell (s : DlState) (path : CString) (bytes : List UInt8) (name : CString) (after : DlState) :
    Prop where
  whole : name.chars ≠ [] → after.disk[name.onDisk]? = some bytes
  error : name.chars = [] → ∃ errno, after.dlerror = some (errno, path)
  dltable : name.chars = [] → after.dltable = s.dltable
  disk : name.chars = [] → after.disk.Grows s.disk

section Copies

variable {env : DlEnv} {host : HostAnswers} {s after : DlState} {path p name mapped : CString} {fuel larger : Nat}
variable {memfs : Memfs} {pi : InodeView} {st : FileStat} {dup : Int} {bytes : List UInt8}
variable {contents : UInt32 → List UInt8} {c : Copying (FdTable × Nat)}

theorem openInput_found (known : toTebakoPath s.globals.cwd path = some p)
    (looked : dwarfsStat (s.world env) fuel p true = some (.ok (.inode st))) :
    (0 ≤ dup → s.openInput env fuel path dup =
        some (some (.memfs dup), Std.ExtTreeMap.insert s.globals.fdTable dup ⟨st, 0, 0, dup⟩)) ∧
      (dup < 0 → ∃ table, s.openInput env fuel path dup = some (none, table)) := by
  have follow : decide ((0 : UInt32) &&& oNofollow = 0) = true := by decide
  have here : toTebakoPath (s.world env).cwd path = some p := known
  have plain : ∀ flags : UInt32, ¬ (0 : UInt32) &&& flags ≠ 0 := fun flags => by simp
  simp only [DlState.openInput, tebakoOpen, here, FdTable.open, follow, looked, Option.map_some,
    FdTable.openFound, plain, and_false, ↓reduceIte]
  constructor
  · intro free
    have opened : ¬ dup = dwarfsIoError := by
      unfold dwarfsIoError
      omega
    simp only [opened, ↓reduceIte, openAnswered, Int.not_lt.mpr free]
  · intro none
    by_cases failed : dup = dwarfsIoError
    · simp only [failed, ↓reduceIte, openAnswered]
      exact ⟨_, rfl⟩
    · simp only [failed, ↓reduceIte, openAnswered, none]
      exact ⟨_, rfl⟩

theorem openInput_mono (enough : fuel ≤ larger) {result : Option DlInput × FdTable}
    (opened : s.openInput env fuel path dup = some result) : s.openInput env larger path dup = some result := by
  simp only [DlState.openInput, tebakoOpen, FdTable.open] at opened ⊢
  cases known : toTebakoPath (s.world env).cwd path with
  | none => simpa only [known] using opened
  | some p =>
      simp only [known, Option.map_map] at opened ⊢
      obtain ⟨found, looked, same⟩ := Option.map_eq_some_iff.mp opened
      exact Option.map_eq_some_iff.mpr ⟨found, dwarfsStat_mono enough looked, same⟩

/-- More fuel changes nothing about a call that comes to its end. -/
theorem map2file_mono (enough : fuel ≤ larger) {result : CString × DlState}
    (done : s.map2file env fuel host path = some result) : s.map2file env larger host path = some result := by
  simp only [DlState.map2file] at done ⊢
  split at done
  · exact done
  · split at done
    · rename_i directories
      rwa [if_pos directories]
    · rename_i directories
      rw [if_neg directories]
      split at done
      · cases done
      · simpa only [openInput_mono enough ‹_›] using done
      · simp only [openInput_mono enough ‹_›]
        simp only [DlState.extract] at done ⊢
        split at done
        · exact done
        · split at done
          · rename_i opens
            rwa [if_pos opens]
          · rename_i opens
            rw [if_neg opens]
            obtain ⟨c, ran, same⟩ := Option.map_eq_some_iff.mp done
            exact Option.map_eq_some_iff.mpr ⟨c, run_mono enough ran, same⟩

/-- A call that is refused before the copy is begun. -/
theorem mapsWell_fail {table : FdTable} (errno : Errno) :
    MapsWell s path bytes .empty ((s.withFds table).fail errno path) :=
  ⟨fun named => absurd rfl named, fun _ => ⟨errno, rfl⟩, fun _ => rfl, fun _ _ _ there => there⟩

/-- The call as far as its loop, which is known to come to an end. -/
theorem map2file_of_returns {size : Nat} {input : DlInput} {table : FdTable}
    (uncached : s.dltable[path.chars]? = none) (directories : host.makesDirectories = true)
    (opens : host.opensOutput = true) (opened : s.openInput env fuel path host.dup = some (some input, table))
    (sized : input.size table = some size)
    (returned : Returns (copyBody (input.read s.globals.memfsTable) host.write) ⟨(table, 0), size, [], 0⟩ c) :
    ∃ fuel, s.map2file env fuel host path =
      some ((s.withFds (input.close c.source.1)).finish (mapName env.dlTmpdir path) path c) := by
  obtain ⟨rounds, ran⟩ := returned
  refine ⟨max fuel rounds, ?_⟩
  simp only [DlState.map2file, uncached, directories, Bool.true_eq_false, ↓reduceIte,
    openInput_mono (Nat.le_max_left fuel rounds) opened, DlState.extract, sized, opens,
    run_mono (Nat.le_max_right fuel rounds) ran, Option.map_some]

/-- What the end of the call makes of the copy. -/
theorem finish_mapsWell {table : FdTable} (named : mapped.chars ≠ []) :
    MapsWell s path bytes ((s.withFds table).finish mapped path c).1 ((s.withFds table).finish mapped path c).2 ↔
      (c.left = 0 → c.written ++ (s.disk[mapped.onDisk]?.getD []).drop c.written.length = bytes) := by
  by_cases done : c.left = 0
  · simp only [DlState.finish, done, ↓reduceIte, forall_const, DlState.withFds]
    constructor
    · intro well
      have whole := well.whole named
      simp only [Std.ExtTreeMap.getElem?_insert_self] at whole
      exact Option.some.inj whole
    · intro same
      refine ⟨fun _ => ?_, fun none => absurd none named, fun none => absurd none named, fun none => absurd none named⟩
      rw [← same]
      exact Std.ExtTreeMap.getElem?_insert_self
  · simp only [DlState.finish, done, ↓reduceIte, false_implies, iff_true]
    refine ⟨fun named => absurd rfl named, fun _ => ⟨_, rfl⟩, fun _ => rfl, fun _ key bytes there => ?_⟩
    exact (getElem?_erase_iff.mp there).2

theorem mapName_ne_nil (named : env.dlTmpdir.chars ≠ []) : (mapName env.dlTmpdir path).chars ≠ [] :=
  append_ne_nil (.inl named)

theorem copied_begins (write : Nat → WriteAnswer) : copied write bytes <+: bytes := by
  have chunk := result_begins (write (lastChunk bytes)) (piece bytes (lastChunk bytes))
  have reached := (List.prefix_append_right_inj (bytes.take (lastChunk bytes * bsize))).mpr chunk
  rw [take_append_piece] at reached
  exact reached.trans (List.take_prefix _ _)

/-- Behind what is written, the file of the host holds what the file of the
image holds there. -/
def LeavesWhole (env : DlEnv) (s : DlState) (host : HostAnswers) (path : CString) (bytes : List UInt8) : Prop :=
  (s.disk[(mapName env.dlTmpdir path).onDisk]?.getD []).drop (copied host.write bytes).length =
    bytes.drop (copied host.write bytes).length

theorem leavesWhole_iff : LeavesWhole env s host path bytes ↔
    copied host.write bytes ++
      (s.disk[(mapName env.dlTmpdir path).onDisk]?.getD []).drop (copied host.write bytes).length = bytes := by
  obtain ⟨rest, whole⟩ := @copied_begins bytes host.write
  unfold LeavesWhole
  generalize copied host.write bytes = front at whole
  subst whole
  rw [List.drop_left, List.append_cancel_left_eq]

/-- What the call comes to, if it is let begin a copy. -/
theorem map2file_copies (named : env.dlTmpdir.chars ≠ []) (serves : memfs.fs.Serves contents)
    (whole : (contents pi.inodeNum).length = st.size) (finds : FindsFile env s path memfs pi st)
    (uncached : s.dltable[path.chars]? = none) (lets : host.LetsCopy) :
    ∃ fuel name after, s.map2file env fuel host path = some (name, after) ∧
      (MapsWell s path (contents pi.inodeNum) name after ↔
        (TakenAsWhole host.write (ReadFails memfs.fs pi.inodeNum) (contents pi.inodeNum) →
          LeavesWhole env s host path (contents pi.inodeNum))) := by
  obtain ⟨⟨fuel, p, known, looked⟩, held, stat⟩ := finds
  obtain ⟨attr, attributes, same⟩ := Memfs.getattr_cases stat
  have range : offMax < 2 ^ 64 := by decide
  have short : (contents pi.inodeNum).length < 2 ^ 64 := by
    have bounded := serves.size attributes
    omega
  have opened := (@openInput_found env s path p fuel st host.dup known looked).1 lets.dup
  have sized : (DlInput.memfs host.dup).size
      (Std.ExtTreeMap.insert s.globals.fdTable host.dup ⟨st, 0, 0, host.dup⟩) = some st.size := by
    simp [DlInput.size, FdTable.fstat]
  have start : CopiedChunks host.write (OpenAt host.dup st) (ReadFails memfs.fs pi.inodeNum)
      (contents pi.inodeNum) 0
      ⟨(Std.ExtTreeMap.insert s.globals.fdTable host.dup ⟨st, 0, 0, host.dup⟩, 0), st.size, [], 0⟩ := by
    refine ⟨⟨_, Std.ExtTreeMap.getElem?_insert_self, rfl, by simp⟩, by simp [whole], by simp, rfl, ?_⟩
    intro earlier below
    exact absurd below (Nat.not_lt_zero earlier)
  obtain ⟨c, returned, ended, content⟩ := copy_returns (memfs_reads serves held stat short) short start
  obtain ⟨fuel, done⟩ := map2file_of_returns uncached lets.makesDirectories lets.opensOutput opened sized returned
  refine ⟨fuel, _, _, done, (finish_mapsWell (mapName_ne_nil named)).trans ?_⟩
  rw [← ended]
  refine forall_congr' fun none => ?_
  rw [content none]
  exact leavesWhole_iff.symm

theorem map2file_refused (finds : FindsFile env s path memfs pi st)
    (uncached : s.dltable[path.chars]? = none) (refused : ¬ host.LetsCopy) :
    ∃ fuel name after, s.map2file env fuel host path = some (name, after) ∧ MapsWell s path bytes name after := by
  obtain ⟨⟨fuel, p, known, looked⟩, held, stat⟩ := finds
  obtain ⟨taken, untaken⟩ := @openInput_found env s path p fuel st host.dup known looked
  refine ⟨fuel, ?_⟩
  simp only [DlState.map2file, uncached]
  by_cases directories : host.makesDirectories = false
  · rw [if_pos directories]
    exact ⟨_, _, rfl, @mapsWell_fail s path bytes s.globals.fdTable .ENOMEM⟩
  · rw [if_neg directories]
    by_cases dup : 0 ≤ host.dup
    · have closed : host.opensOutput = false := by
        by_contra opens
        exact refused ⟨Bool.eq_true_of_not_eq_false directories, dup, Bool.eq_true_of_not_eq_false opens⟩
      rw [taken dup]
      simp only [DlState.extract, DlInput.size, FdTable.fstat, Std.ExtTreeMap.getElem?_insert_self,
        Option.map_some, closed, ↓reduceIte]
      exact ⟨_, _, rfl, mapsWell_fail Errno.EIO⟩
    · obtain ⟨table, failed⟩ := untaken (Int.not_le.mp dup)
      rw [failed]
      exact ⟨_, _, rfl, mapsWell_fail .ENOENT⟩

/-- A path that is not in the table yet is mapped to a copy of the whole file, or
with an error to nothing, if and only if this holds where the host lets a copy
begin, no read fails, and every write but that of the last chunk takes all bytes:
what the last write has not taken is in the file of the host already, and
nothing comes behind it. -/
theorem map2file_complete_iff (env : DlEnv) (s : DlState) (host : HostAnswers) (path : CString) (memfs : Memfs)
    (pi : InodeView) (st : FileStat) (contents : UInt32 → List UInt8) (named : env.dlTmpdir.chars ≠ [])
    (serves : memfs.fs.Serves contents) (whole : (contents pi.inodeNum).length = st.size)
    (finds : FindsFile env s path memfs pi st) (uncached : path.chars ∉ s.dltable) :
    (∃ fuel name after, s.map2file env fuel host path = some (name, after) ∧
        MapsWell s path (contents pi.inodeNum) name after) ↔
      (host.LetsCopy → TakenAsWhole host.write (ReadFails memfs.fs pi.inodeNum) (contents pi.inodeNum) →
        LeavesWhole env s host path (contents pi.inodeNum)) := by
  have absent : s.dltable[path.chars]? = none := Std.ExtTreeMap.getElem?_eq_none uncached
  by_cases lets : host.LetsCopy
  · obtain ⟨enough, name, after, done, well⟩ := map2file_copies named serves whole finds absent lets
    constructor
    · intro mapping _
      obtain ⟨fuel, other, twin, ran, mapped⟩ := mapping
      have left := map2file_mono (Nat.le_max_left fuel enough) ran
      have right := map2file_mono (Nat.le_max_right fuel enough) done
      cases left.symm.trans right
      exact well.mp mapped
    · intro condition
      exact ⟨enough, name, after, done, well.mpr (condition lets)⟩
  · exact iff_of_true (map2file_refused finds absent lets) fun able => absurd able lets

end Copies

theorem libraryImage_serves : (libraryRoot [1]).fs.Serves (wholeFile (libraryImage [1])) :=
  library_serves [1] 1 (libraryRoot [1]).fsopts 0 (libraryImage [1]) rfl

theorem library_found : FindsFile libraryEnv (beforeCopy [1]) libraryPath (libraryRoot [1]) ⟨1⟩ (libraryStat [1]) where
  looked := ⟨9, libraryPath, by decide, rfl⟩
  held := libraryMounted_root [1]
  stat := rfl

theorem library_uncached : libraryPath.chars ∉ (beforeCopy [1]).dltable := by
  simp [beforeCopy, DlState.initial]

theorem library_copied_whole : ∃ fuel name after,
    (beforeCopy [1]).map2file libraryEnv fuel libraryHost libraryPath = some (name, after) ∧
      MapsWell (beforeCopy [1]) libraryPath (wholeFile (libraryImage [1]) 1) name after := by
  refine (map2file_complete_iff libraryEnv (beforeCopy [1]) libraryHost libraryPath (libraryRoot [1]) ⟨1⟩
    (libraryStat [1]) (wholeFile (libraryImage [1])) (by decide) libraryImage_serves rfl library_found
    library_uncached).mpr fun _ _ => ?_
  have free : (beforeCopy [1]).disk[(mapName libraryEnv.dlTmpdir libraryPath).onDisk]? = none := by
    simp [beforeCopy, DlState.initial]
  rw [LeavesWhole, free]
  rfl

/-- The last write of a copy fails. -/
def fullHost : HostAnswers := ⟨true, 5, true, fun _ => .failed⟩

theorem library_lost : (beforeCopy [1]).map2file libraryEnv 9 fullHost libraryPath =
    some (libraryCopy, { afterCopy with disk := Std.ExtTreeMap.insert (∅ : Disk) libraryCopy.onDisk [] }) := by
  rfl

/-- The host has no room for the library. It is mapped to an empty file. -/
theorem failed_write_mapped : ¬ ∀ env s host path memfs pi st (contents : UInt32 → List UInt8),
    env.dlTmpdir.chars ≠ [] → memfs.fs.Serves contents → (contents pi.inodeNum).length = st.size →
    FindsFile env s path memfs pi st → path.chars ∉ s.dltable →
    ∃ fuel name after, s.map2file env fuel host path = some (name, after) ∧
      MapsWell s path (contents pi.inodeNum) name after := by
  intro always
  obtain ⟨fuel, name, after, ran, well⟩ := always libraryEnv (beforeCopy [1]) fullHost libraryPath (libraryRoot [1])
    ⟨1⟩ (libraryStat [1]) (wholeFile (libraryImage [1])) (by decide) libraryImage_serves rfl library_found
    library_uncached
  have left := map2file_mono (Nat.le_max_left fuel 9) ran
  have right := map2file_mono (Nat.le_max_right fuel 9) library_lost
  cases left.symm.trans right
  have whole := well.whole (by decide)
  simp only [Std.ExtTreeMap.getElem?_insert_self] at whole
  exact absurd (Option.some.inj whole) (by decide)

end Tebako
