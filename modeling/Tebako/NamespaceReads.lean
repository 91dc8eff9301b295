import Tebako.FileIo
import Tebako.Namespace
import Tebako.OpenFiles

namespace Tebako

open Data Data.Keyed Data.Loop Data.LexicalPath Data.LinkTree Data.OpenFile

/-! Opening a file by its place in the tree of all mounted images, and reading it.

The descriptor keeps the inode number that the lookup reports. A read takes the
image and the inode from this number. -/

variable {w : World} {memfs : Memfs} {index : UInt32} {pi : InodeView} {st : FileStat} {data : ImageData}

theorem node_attributes {finish : InodeView} (found : w.nodeStat (.inode index finish) = .ok st) :
    ∃ memfs, w.memfsTable[index]? = some memfs ∧ memfs.getattr finish = .ok st := by
  cases held : w.memfsTable[index]? with
  | none => simp [World.nodeStat, memfsCall, held] at found
  | some memfs => exact ⟨memfs, rfl, by simpa only [World.nodeStat, memfsCall, held] using found⟩

theorem inodeMemfsCall_of_node {α : Type} (fn : Memfs → UInt32 → Except Errno α) (assembled : w.Assembled)
    (held : w.memfsTable[index]? = some memfs) (stat : memfs.getattr pi = .ok st)
    (numbered : pi.inodeNum < 2 ^ 31) :
    inodeMemfsCall w.memfsTable fn st.ino.toUInt32 = fn memfs (memfs.reported pi) := by
  obtain ⟨here, _⟩ := (assembled.images held).2 pi numbered
  simp only [Memfs.getattr_ino stat, UInt32.toUInt32_toUInt64, inodeMemfsCall, here, held]

theorem content_of_node (assembled : w.Assembled) (held : w.memfsTable[index]? = some memfs)
    (stat : memfs.getattr pi = .ok st) (numbered : pi.inodeNum < 2 ^ 31) :
    data.content w.memfsTable st.ino.toUInt32 = data index pi.inodeNum := by
  obtain ⟨here, _⟩ := (assembled.images held).2 pi numbered
  have offset : memfs.reported pi - memfs.dwarfsRootInode = pi.inodeNum := UInt32.add_sub_cancel ..
  simp only [ImageData.content, Memfs.getattr_ino stat, UInt32.toUInt32_toUInt64, here, held, offset]

/-- The flags ask for nothing that the file is not. -/
structure OpensPlainly (flags : UInt32) (st : FileStat) : Prop where
  reads : flags &&& oWrite = 0
  follows : flags &&& oNofollow = 0
  directory : flags &&& oDirectory ≠ 0 → st.isDir = true

theorem openFound_of_plain {flags : UInt32} {vfd : Int} (plain : OpensPlainly flags st) (free : vfd ≠ dwarfsIoError)
    (table : FdTable) : table.openFound (.ok (.inode st)) flags vfd =
      (.opened vfd, Std.ExtTreeMap.insert table vfd ⟨st, 0, 0, vfd⟩) := by
  have kind : ¬ (st.isDir = false ∧ flags &&& oDirectory ≠ 0) := by
    intro wrong
    rw [plain.directory wrong.2] at wrong
    cases wrong.1
  simp only [FdTable.openFound, plain.reads, plain.follows, kind, free, ne_eq, not_true_eq_false, and_false,
    ↓reduceIte]

theorem World.LeadsTo.open {given path : CString} {finish : Node} {flags : UInt32} {mode : Option UInt32} {vfd : Int}
    (reached : w.LeadsTo given path finish st) (plain : OpensPlainly flags st) (free : vfd ≠ dwarfsIoError)
    (table : FdTable) : ∃ enough, ∀ fuel ≥ enough, tebakoOpen w fuel (some given) flags mode vfd table =
      some (.returned vfd, Std.ExtTreeMap.insert table vfd ⟨st, 0, 0, vfd⟩) := by
  obtain ⟨enough, ran⟩ := reached.dwarfsStat
  refine ⟨enough, fun fuel more => ?_⟩
  have follows : decide (flags &&& oNofollow = 0) = true := decide_eq_true plain.follows
  simp only [tebakoOpen, reached.known, FdTable.open, follows, ran fuel more, Option.map_some,
    openFound_of_plain plain free, openAnswered]

/-- A file that is opened by a path, and then used with any others in between, is
the file that the path leads to in the tree: its bytes, from the beginning. -/
theorem read_in_namespace (w : World) (given path : CString) (index : UInt32) (pi : InodeView) (st : FileStat)
    (reached : w.LeadsTo given path (.inode index pi) st) (numbered : pi.inodeNum < 2 ^ 31)
    (data : ImageData) (backs : data.Backs w.memfsTable) (sized : (st.size : Int) ≤ offMax)
    (flags : UInt32) (mode : Option UInt32) (plain : OpensPlainly flags st) (vfd : Int) (free : vfd ≠ dwarfsIoError)
    (table : FdTable) :
    ∃ enough opened, (∀ fuel ≥ enough, tebakoOpen w fuel (some given) flags mode vfd table =
        some (.returned vfd, opened)) ∧
      ∀ ops : List (Int × FileCall),
        Machine.Allows (OpenFile.step fileLimit) CallFits ((opsAt vfd ops).map (FileCall.op data w.memfsTable))
          (some ⟨st, data index pi.inodeNum, st.size, 0⟩) →
        answersAt vfd ops (Machine.answers (fileStep w.memfsTable) ops opened) =
          List.zipWith (fileAnswer vfd) (opsAt vfd ops)
            (Machine.answers (OpenFile.step fileLimit) ((opsAt vfd ops).map (FileCall.op data w.memfsTable))
              (some ⟨st, data index pi.inodeNum, st.size, 0⟩)) := by
  obtain ⟨enough, opens⟩ := @World.LeadsTo.open w st given path _ flags mode vfd reached plain free table
  refine ⟨enough, _, opens, fun ops fits => ?_⟩
  obtain ⟨memfs, held, stat⟩ := node_attributes reached.stat
  have entered : FdTable.find (Std.ExtTreeMap.insert table vfd ⟨st, 0, 0, vfd⟩) vfd = some ⟨st, 0, 0, vfd⟩ := by
    rw [FdTable.find, Std.ExtTreeMap.getElem?_insert_self]
  have shows : Shows data w.memfsTable ⟨st, 0, 0, vfd⟩ ⟨st, data index pi.inodeNum, st.size, 0⟩ :=
    { info := rfl, content := (content_of_node reached.assembled held stat numbered).symm, size := rfl, pos := rfl
      sizeFits := sized, posFits := show ((0 : Nat) : Int) ≤ offMax by decide }
  rw [fileStep_independent.answersAt_eq, entered]
  exact (descriptor_follows backs free).answers_eq shows fits

/-! ## A file of an image that is mounted in a directory -/

def storedBytes (inode : UInt32) : List UInt8 := if inode = 1 then [7, 8, 9] else []

def storedNames (inode : UInt32) : List (InodeView × Str) := if inode = 0 then [(⟨1⟩, ['f'])] else []

def storedImage : Memfs := innerImage.stocked storedBytes storedNames

/-- The directory `d`, in it the image at `m`, and in this the file `f`. -/
def storedWorld : World where
  memfsTable := (Std.ExtTreeMap.insert ∅ 0 outerImage).insert 1 storedImage
  mountTable := Std.ExtTreeMap.insert ∅ (1, ['m']) (.memfs 1)
  cwd := .init
  hostStat _ := .error .ENOENT

def storedPath : CString := belowMountPoint ['d', '/', 'm', '/', 'f']

def storedStat : FileStat := ⟨2 ^ 31 + 1, 0o100644, 3⟩

theorem storedWorld_images (held : storedWorld.memfsTable[index]? = some memfs) :
    index = 0 ∧ memfs = outerImage ∨ index = 1 ∧ memfs = storedImage := by
  simp only [storedWorld, Std.ExtTreeMap.getElem?_insert, Std.LawfulEqCmp.compare_eq_iff_eq] at held
  split at held
  · rename_i one
    exact .inr ⟨one.symm, (Option.some.inj held).symm⟩
  · split at held
    · rename_i zero
      exact .inl ⟨zero.symm, (Option.some.inj held).symm⟩
    · simp at held

theorem storedWorld_mounts {point : TebakoMountPoint} {target : TebakoMountTarget}
    (mount : storedWorld.mountTable[point]? = some target) : point = (1, ['m']) ∧ target = .memfs 1 := by
  simp only [storedWorld, Std.ExtTreeMap.getElem?_insert, Std.LawfulEqCmp.compare_eq_iff_eq] at mount
  split at mount
  · rename_i same
    exact ⟨same.symm, (Option.some.inj mount).symm⟩
  · simp at mount

theorem storedWorld_assembled : storedWorld.Assembled where
  images := by
    intro index memfs held
    have grafted := fun index memfs => @World.Assembled.images graftedWorld graftedWorld_assembled index memfs
    have outer : graftedWorld.memfsTable[(0 : UInt32)]? = some outerImage := by rfl
    have inner : graftedWorld.memfsTable[(1 : UInt32)]? = some innerImage := by rfl
    rcases storedWorld_images held with ⟨rfl, rfl⟩ | ⟨rfl, rfl⟩
    · exact grafted 0 outerImage outer
    · obtain ⟨whole, decodes⟩ := grafted 1 innerImage inner
      exact ⟨whole.stocked, decodes⟩
  once := by
    intro point other index first second
    exact (storedWorld_mounts first).1.trans (storedWorld_mounts second).1.symm

theorem storedWorld_faithful {rest : List CString} (descends : dotDot ∉ rest.map (·.chars)) :
    storedWorld.NextFaithful (.walk memfs pi st rest) := by
  refine nextFaithful_of_descending ?_ ?_ descends
  · intro index memfs pi text held linked
    rcases storedWorld_images held with ⟨rfl, rfl⟩ | ⟨rfl, rfl⟩
    · exact @entries_descend outerImage _ outerEntries _ rfl (by decide) linked
    · rw [storedImage, stocked_linkTree] at linked
      exact @entries_descend innerImage _ innerEntries _ rfl (by decide) linked
  · intro point target mount
    cases (storedWorld_mounts mount).2

/-- No name on the way leads up. -/
theorem storedWorld_next {names : List CString} (clean : ∀ name ∈ names.map (·.chars), name ≠ dot ∧ name ≠ dotDot) :
    NextNamed (.walk memfs pi st names) ∧ storedWorld.NextFaithful (.walk memfs pi st names) := by
  refine ⟨?_, storedWorld_faithful fun up => (clean _ up).2 rfl⟩
  cases names with
  | nil => trivial
  | cons name rest => exact clean name.chars (List.mem_map_of_mem (List.mem_cons_self ..))

theorem storedWorld_child :
    storedWorld.linkTree.child (.inode 0 ⟨0⟩) ['d'] = some (.inode 0 ⟨1⟩) ∧
      storedWorld.linkTree.child (.inode 0 ⟨1⟩) ['m'] = some (.inode 1 ⟨0⟩) ∧
      storedWorld.linkTree.child (.inode 1 ⟨0⟩) ['f'] = some (.inode 1 ⟨1⟩) := by
  decide +kernel

theorem storedWorld_leads : storedWorld.LeadsTo storedPath storedPath (.inode 1 ⟨1⟩) storedStat where
  assembled := storedWorld_assembled
  known := by decide +kernel
  below := by decide +kernel
  normal := by decide +kernel
  stat := by rfl
  leads := by
    have path : (storedPath.drop (tebakoMountPointLength + 1)).chars = ['d', '/', 'm', '/', 'f'] := by
      decide +kernel
    obtain ⟨directory, mount, file⟩ := storedWorld_child
    refine ⟨outerImage, ⟨0⟩, by rfl, by rfl, ?_, ?_⟩
    · refine forall_reached_of_next (by rfl) ⟨trivial, trivial⟩ ?_
      refine forall_reached_of_next (by rfl) (storedWorld_next (by decide +kernel)) ?_
      refine forall_reached_of_next (by rfl) (storedWorld_next (by decide +kernel)) ?_
      refine forall_reached_of_next (by rfl) ⟨trivial, trivial⟩ ?_
      refine forall_reached_of_next (by rfl) (storedWorld_next (by decide +kernel)) ?_
      exact forall_reached_of_halt (by rfl) (storedWorld_next (by decide +kernel))
    · rw [path]
      refine ⟨0, .down (by decide) directory (by decide +kernel) ?_⟩
      refine .down (by decide) mount (by decide +kernel) ?_
      exact .down (by decide) file (by decide +kernel) (.here _)

def storedData : ImageData := fun index inode => .ok (if index = 1 then storedBytes inode else [])

theorem storedData_backs : storedData.Backs storedWorld.memfsTable where
  read {index memfs} held inode size start := by
    rcases storedWorld_images held with ⟨rfl, rfl⟩ | ⟨rfl, rfl⟩
    · have nothing : storedData 0 inode = .ok [] := rfl
      simp only [nothing, Except.map, slice, List.drop_nil, List.take_nil]
      rfl
    · rfl
  size {index inode content} found := by
    cases found
    unfold storedBytes
    split
    · split <;> decide
    · decide

/-- Two calls on the file, and one on another descriptor. -/
def storedCalls : List (Int × FileCall) := [(5, .read 2), (6, .close), (5, .readv [1, 1])]

theorem stored_file_read :
    ∃ enough opened, (∀ fuel ≥ enough, tebakoOpen storedWorld fuel (some storedPath) 0 none 5 ∅ =
        some (.returned 5, opened)) ∧
      answersAt 5 storedCalls (Machine.answers (fileStep storedWorld.memfsTable) storedCalls opened) =
        [.call (.counting [7, 8]), .call (.counting [9])] := by
  have plain : OpensPlainly 0 storedStat := ⟨by decide, by decide, by decide⟩
  obtain ⟨enough, opened, opens, reads⟩ := read_in_namespace storedWorld storedPath storedPath 1 ⟨1⟩ storedStat
    storedWorld_leads (by decide) storedData storedData_backs (by decide) 0 none plain 5 (by decide) ∅
  refine ⟨enough, opened, opens, ?_⟩
  have own : (opsAt 5 storedCalls).map (FileCall.op storedData storedWorld.memfsTable) =
      [.read 2, .readInto [1, 1]] := by rfl
  have file : storedData 1 (InodeView.mk 1).inodeNum = .ok [7, 8, 9] := by rfl
  have run := reads storedCalls
  rw [own, file] at run
  rw [run]
  · rfl
  · refine ⟨fun f content same found => ?_, ⟨by decide, by decide, fun f content same found => ?_⟩, trivial⟩
    · cases same
      cases found
      rw [length_slice]
      simp only [List.length_cons, List.length_nil]
      omega
    · cases same
      cases found
      simp [Segments.gap_cons, Segments.not_gap_nil]

end Tebako
