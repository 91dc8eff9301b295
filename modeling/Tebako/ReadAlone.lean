import Tebako.Data.Watched
import Tebako.OverlappingCalls

namespace Tebako

open Data Data.OrderedMap

/-! A thread that has a descriptor for itself, whatever the other threads do. -/

/-- The call on the descriptor that this is, if it is one. -/
def TableCall.on (vfd : Int) : TableCall → Option FileCall
  | .file other call => if other = vfd then some call else none
  | _ => none

/-- No stream is opened on the descriptor, so that none closes it. -/
def TableCall.Spares (vfd : Int) : TableCall → Prop
  | .opendir other _ => other ≠ vfd
  | _ => True

def Tables.Unstreamed (vfd : Int) (t : Tables) : Prop :=
  ∀ (dirp : Nat) (ds : TebakoDs), t.dsTable[dirp]? = some ds → ds.vfd ≠ vfd

section Alone

variable {memfsTable : MemfsTable} {t : Tables} {vfd : Int} {dirp : Nat} {ds : TebakoDs} {op : TableCall}

theorem Tables.Unstreamed.setDs (unstreamed : t.Unstreamed vfd) (other : ds.vfd ≠ vfd) :
    (t.setDs dirp ds).Unstreamed vfd := by
  intro number found held
  rcases getElem?_insert_iff.mp held with ⟨_, same⟩ | ⟨_, before⟩
  · rw [← same]
    exact other
  · exact unstreamed number found before

/-- Other calls leave the descriptor as it is. -/
theorem tableCallStep_elsewhere (unstreamed : t.Unstreamed vfd) (spares : op.Spares vfd) (elsewhere : op.on vfd = none) :
    (tableCallStep memfsTable op t).2.fdTable[vfd]? = t.fdTable[vfd]? ∧
      (tableCallStep memfsTable op t).2.Unstreamed vfd := by
  cases op with
  | file other call =>
      have different : vfd ≠ other := by
        intro same
        simp only [TableCall.on, same, ↓reduceIte, reduceCtorEq] at elsewhere
      exact ⟨(fileStep_eq t.fdTable other call).2.2 vfd different, unstreamed⟩
  | opendir other into =>
      have same := @Process.loadCache_vfd (TebakoDs.make other into.memory) t.fdTable memfsTable 0 true
      simp only [tableCallStep, DsTable.opendir, true_and]
      split
      · exact unstreamed.setDs (by rw [same]; exact spares)
      · exact unstreamed
  | closedir dirp =>
      cases held : t.dsTable[dirp]? with
      | none =>
          simp only [tableCallStep, DsTable.closedir, held, true_and]
          exact unstreamed
      | some ds =>
          simp only [tableCallStep, DsTable.closedir, held]
          refine ⟨getElem?_erase_ne (Ne.symm (unstreamed dirp ds held)), fun number found there => ?_⟩
          exact unstreamed number found (getElem?_erase_iff.mp there).2
  | telldir dirp => exact ⟨rfl, unstreamed⟩
  | seekdir dirp pos =>
      cases held : t.dsTable[dirp]? with
      | none =>
          simp only [tableCallStep, DsTable.seekdir, held, true_and]
          exact unstreamed
      | some ds =>
          simp only [tableCallStep, DsTable.seekdir, held, true_and]
          exact unstreamed.setDs (unstreamed dirp ds held)
  | dirfd dirp => exact ⟨rfl, unstreamed⟩
  | readdir dirp =>
      cases held : t.dsTable[dirp]? with
      | none =>
          simp only [tableCallStep, DsTable.readdir, held, true_and]
          exact unstreamed
      | some ds =>
          simp only [tableCallStep, DsTable.readdir, held, true_and]
          exact unstreamed.setDs (by rw [readdir_vfd]; exact unstreamed dirp ds held)

theorem tables_watches (memfsTable : MemfsTable) (vfd : Int) :
    Machine.Watches (tableCallStep memfsTable) (descriptorStep memfsTable vfd) (TableCall.on vfd) TableAnswer.file
      (fun _ op => op.Spares vfd) (fun _ _ => True)
      fun t fd => t.fdTable[vfd]? = fd ∧ t.Unstreamed vfd := by
  have same : ∀ {op call}, TableCall.on vfd op = some call → op = .file vfd call := by
    intro op call watching
    cases op with
    | file other call =>
        simp only [TableCall.on] at watching
        split at watching
        · rename_i here
          cases watching
          rw [here]
        · cases watching
    | _ => cases watching
  constructor
  · intro t fd op call related _ watching _
    obtain ⟨held, _⟩ := related
    cases same watching
    exact congrArg TableAnswer.file ((fileStep_eq t.fdTable vfd call).1.trans (by rw [held]))
  · intro t fd op call related _ watching _
    obtain ⟨held, unstreamed⟩ := related
    cases same watching
    exact ⟨(fileStep_eq t.fdTable vfd call).2.1.trans (by rw [held]), unstreamed⟩
  · intro t fd op related spares elsewhere
    obtain ⟨held, unstreamed⟩ := related
    obtain ⟨kept, still⟩ := tableCallStep_elsewhere unstreamed spares elsewhere
    exact ⟨kept.trans held, still⟩

end Alone

/-- The answer to the call at this place of a history, on a file that nobody else
uses. -/
def aloneAt (data : ImageData) (memfsTable : MemfsTable) (vfd : Int) (file : Option MemfsFile)
    (begun : List TableCall) (place : Nat) : Option FileAnswer :=
  let calls := begun.filterMap (TableCall.on vfd)
  let answers := Machine.answers (OpenFile.step fileLimit) (calls.map (FileCall.op data memfsTable)) file
  (List.zipWith (fileAnswer vfd) calls answers)[((begun.take place).filterMap (TableCall.on vfd)).length]?

/-- Whatever other threads do with their own descriptors and with streams, and
however their rounds come between, the calls on one descriptor are answered as
those on a file that is read by nobody else. -/
theorem own_descriptor_read_alone {data : ImageData} {memfsTable : MemfsTable} {vfd : Int} {start : Tables}
    {file : Option MemfsFile} {s : Rounds.Overlapping Tables TableRound TableAnswer TableCall}
    (backs : data.Backs memfsTable) (free : vfd ≠ dwarfsIoError)
    (shows : Showing data memfsTable start.fdTable[vfd]? file) (unstreamed : start.Unstreamed vfd)
    (reached : Machine.Reaches (Rounds.overlap (tableRounds memfsTable) TableRound.start)
      (Rounds.Overlapping.Allowed TableRound.start TableRound.Apart) (.fresh start) s)
    (spares : ∀ op ∈ s.begun, op.Spares vfd)
    (fits : Machine.Allows (OpenFile.step fileLimit) CallFits
      ((s.begun.filterMap (TableCall.on vfd)).map (FileCall.op data memfsTable)) file)
    {place : Nat} {answer : TableAnswer} {call : FileCall} (returned : (place, answer) ∈ s.returned)
    (begun : s.begun[place]? = some (.file vfd call)) :
    (aloneAt data memfsTable vfd file s.begun place).map TableAnswer.file = some answer := by
  have swaps : (tableRounds memfsTable).Swaps TableRound.Apart := tableRounds_footprints.swaps
  have answered := swaps.answered reached returned
  rw [atOnce_eq] at answered
  have watching : TableCall.on vfd (.file vfd call) = some call := by simp only [TableCall.on, ↓reduceIte]
  have seen := Machine.seen_getElem? begun watching answered
  have watches := tables_watches memfsTable vfd
  have permitted : Machine.Allows (tableCallStep memfsTable) (fun _ op => op.Spares vfd) s.begun start :=
    Machine.allows_of_forall fun op member _ => spares op member
  have fitting : Machine.Allows (descriptorStep memfsTable vfd) (fun _ _ => True)
      (s.begun.filterMap (TableCall.on vfd)) start.fdTable[vfd]? :=
    Machine.allows_of_forall fun _ _ _ => trivial
  rw [watches.seen_eq ⟨rfl, unstreamed⟩ permitted fitting] at seen
  have follows := descriptor_follows backs free
  rw [follows.answers_eq shows fits, List.getElem?_map] at seen
  exact seen

section Crossed

/-- The file that is open twice. -/
def twiceFile : MemfsFile := ⟨(filledFd [7, 8, 9]).st, .ok [7, 8, 9], 3, 0⟩

theorem twiceFile_shows :
    Showing (filledData [7, 8, 9]) (filledTable [7, 8, 9]) (openTwice [7, 8, 9]).fdTable[(1 : Int)]? (some twiceFile) := by
  have held : (openTwice [7, 8, 9]).fdTable[(1 : Int)]? = some (filledFd [7, 8, 9]) := by
    simp only [openTwice]
    rw [getElem?_insert_ne (by decide), Std.ExtTreeMap.getElem?_insert_self]
  rw [held]
  exact {
    info := rfl
    content := filled_content.symm
    size := rfl
    pos := rfl
    sizeFits := by decide
    posFits := by decide }

theorem crossed_read_alone :
    ∃ answer, (0, answer) ∈ (runCrossed crossedReads).returned ∧ answer.bytes = [7, 8] ∧
      (aloneAt (filledData [7, 8, 9]) (filledTable [7, 8, 9]) 1 (some twiceFile)
        (runCrossed crossedReads).begun 0).map TableAnswer.file = some answer := by
  have begun : (runCrossed crossedReads).begun =
      [.file 1 (.read 2), .file 2 (.readv [1, 2]), .file 1 (.pread 1 0)] := Rounds.overlap_begun crossedReads
  have fits : Machine.Allows (OpenFile.step fileLimit) CallFits
      (((runCrossed crossedReads).begun.filterMap (TableCall.on 1)).map
        (FileCall.op (filledData [7, 8, 9]) (filledTable [7, 8, 9]))) (some twiceFile) := by
    have few : ∀ {start count : Nat} {content : List UInt8}, (.ok [7, 8, 9] : Except Errno (List UInt8)) = .ok content →
        (OpenFile.slice content start count).length < 2 ^ 31 := by
      intro start count content found
      cases found
      rw [OpenFile.length_slice]
      simp only [List.length_cons, List.length_nil]
      omega
    rw [begun]
    refine ⟨fun f content same found => ?_, ⟨by decide, fun f content same found => ?_⟩, trivial⟩
    · cases same
      exact few found
    · cases same
      exact few found
  have spares : ∀ op ∈ (runCrossed crossedReads).begun, op.Spares 1 := by
    rw [begun]
    simp [TableCall.Spares]
  have returned : (0, [7, 8]) ∈ (runCrossed crossedReads).returned.map fun returned => (returned.1, returned.2.bytes) := by
    rw [crossed_returned]
    simp
  obtain ⟨⟨place, answer⟩, member, same⟩ := List.mem_map.mp returned
  obtain ⟨rfl, bytes⟩ := Prod.mk.inj same
  refine ⟨answer, member, bytes, ?_⟩
  have unstreamed : (openTwice [7, 8, 9]).Unstreamed 1 := by simp [Tables.Unstreamed, openTwice]
  exact own_descriptor_read_alone (filled_backs (by decide)) (by decide) twiceFile_shows unstreamed crossed_reached
    spares fits member (by rw [begun]; rfl)

end Crossed

end Tebako
