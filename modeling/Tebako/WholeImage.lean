import Tebako.RelativeLinks

namespace Tebako

open Data Data.LexicalPath Data.LinkTree

/-! What dwarfs promises of an image, and images given by their entries. -/

/-- There is a root directory, which is an entry of no directory, and what is in
the image can be read. -/
structure Memfs.Whole (memfs : Memfs) : Prop where
  stores : memfs.Stores
  rootDir : ∀ {pi}, memfs.find memfs.dwarfsRootInode = some pi → memfs.linkTree.isDir pi
  topmost : ∀ {pi inode name}, memfs.find memfs.dwarfsRootInode = some pi →
    memfs.findChild inode name ≠ some pi
  numbers : ∀ {pi}, memfs.linkTree.isDir pi → pi.inodeNum < 2 ^ 31

def Memfs.isDirectory (memfs : Memfs) (pi : InodeView) : Bool :=
  match memfs.getattr pi with
  | .ok st => st.isDir
  | .error _ => false

theorem isDirectory_iff {memfs : Memfs} {pi : InodeView} :
    memfs.isDirectory pi = true ↔ memfs.linkTree.isDir pi := by
  cases stat : memfs.getattr pi with
  | error errno => simp [Memfs.isDirectory, Memfs.linkTree, stat]
  | ok st => simp [Memfs.isDirectory, Memfs.linkTree, stat]

/-! ## Images given by their entries -/

/-- Entries are in directories that come with them, under names of their own. -/
def EntriesPlaced (entries : List ImageEntry) : Prop :=
  ∀ entry ∈ entries, entry.name.chars ≠ dot ∧ entry.name.chars ≠ dotDot ∧
    ∃ attr, (Dwarfs.ofEntries entries).getattr ⟨entry.parent⟩ = .ok attr ∧
      attr.mode &&& fileTypeMask = 0o040000

variable {memfs : Memfs} {entries : List ImageEntry} {inode : UInt32} {name : CString}
variable {pi child : InodeView} {st : FileStat}

theorem entry_of_findChild (image : memfs.fs = .ofEntries entries)
    (found : memfs.findChild inode name = some child) :
    ∃ index entry, entries[index]? = some entry ∧ entry.parent = inode - memfs.dwarfsRootInode ∧
      entry.name = name ∧ child = ⟨UInt32.ofNat (index + 1)⟩ := by
  rw [Memfs.findChild, image] at found
  obtain ⟨index, place, same⟩ := Option.map_eq_some_iff.mp found
  obtain ⟨bound, holds, _⟩ := List.findIdx?_eq_some_iff_getElem.mp place
  simp only [decide_eq_true_eq] at holds
  exact ⟨index, entries[index], List.getElem?_eq_getElem bound, holds.1, holds.2, same.symm⟩

theorem getattr_of_entry (image : memfs.fs = .ofEntries entries) {index : Nat} {entry : ImageEntry}
    (listed : entries[index]? = some entry) (small : entries.length < 2 ^ 31) :
    memfs.getattr ⟨UInt32.ofNat (index + 1)⟩ =
      .ok ⟨(memfs.reported ⟨UInt32.ofNat (index + 1)⟩).toUInt64, entry.mode, 0⟩ := by
  obtain ⟨bound, _⟩ := List.getElem?_eq_some_iff.mp listed
  have number : (UInt32.ofNat (index + 1)).toNat = index + 1 := by
    rw [UInt32.toNat_ofNat']
    omega
  have nonzero : UInt32.ofNat (index + 1) ≠ 0 := by
    intro zero
    rw [zero] at number
    exact absurd number (by simp)
  have got : (Dwarfs.ofEntries entries).getattr ⟨UInt32.ofNat (index + 1)⟩ = .ok ⟨entry.mode, 0⟩ := by
    simp only [Dwarfs.ofEntries, nonzero, ↓reduceIte, number, Nat.add_sub_cancel, listed]
  simp only [Memfs.getattr, image, got, Except.map]

theorem number_of_getattr (image : memfs.fs = .ofEntries entries) (stat : memfs.getattr pi = .ok st) :
    pi.inodeNum.toNat ≤ entries.length := by
  obtain ⟨attr, got, _⟩ := Memfs.getattr_cases stat
  rw [image] at got
  simp only [Dwarfs.ofEntries] at got
  split at got
  · rename_i zero
    simp [zero]
  · split at got
    · cases got
    · rename_i listed
      obtain ⟨bound, _⟩ := List.getElem?_eq_some_iff.mp listed
      omega

theorem readlink_of_entry (image : memfs.fs = .ofEntries entries) (stat : memfs.getattr pi = .ok st)
    (link : st.isLnk = true) : ∃ target, memfs.fs.readlink pi = .ok target := by
  obtain ⟨attr, got, rfl⟩ := Memfs.getattr_cases stat
  rw [image] at got ⊢
  simp only [Dwarfs.ofEntries] at got
  split at got
  · cases got
    have directory : (0o040755 : UInt32) &&& 0o170000 ≠ 0o120000 := by decide
    exact absurd link (by simpa [FileStat.isLnk, fileTypeMask] using directory)
  · split at got
    · cases got
    · rename_i entry listed
      exact ⟨entry.target, by simp [Dwarfs.ofEntries, listed]⟩

theorem root_of_entries (image : memfs.fs = .ofEntries entries)
    (found : memfs.find memfs.dwarfsRootInode = some pi) : pi = ⟨0⟩ := by
  simp only [Memfs.find, image, Dwarfs.ofEntries, UInt32.sub_self, Option.ite_none_right_eq_some] at found
  exact (Option.some.inj found.2).symm

theorem whole_of_entries (image : memfs.fs = .ofEntries entries) (small : entries.length < 2 ^ 31)
    (placed : EntriesPlaced entries) : memfs.Whole where
  stores := {
    attributes := by
      intro inode name child found
      obtain ⟨index, entry, listed, _, _, rfl⟩ := entry_of_findChild image found
      exact ⟨_, getattr_of_entry image listed small⟩
    targets := readlink_of_entry image
    named := by
      intro inode name child found
      obtain ⟨index, entry, listed, _, rfl, _⟩ := entry_of_findChild image found
      obtain ⟨notDot, notDotDot, _⟩ := placed entry (List.mem_of_getElem? listed)
      exact ⟨notDot, notDotDot⟩
    proper := {
      holder := by
        intro node name below found
        obtain ⟨index, entry, listed, parent, _, _⟩ := entry_of_findChild image found
        obtain ⟨_, _, attr, got, directory⟩ := placed entry (List.mem_of_getElem? listed)
        have here : entry.parent = node.inodeNum := by simpa [Memfs.reported] using parent
        rw [here] at got
        exact ⟨⟨(memfs.reported node).toUInt64, attr.mode, attr.size⟩,
          by simp only [Memfs.getattr, image, got, Except.map], by simpa [FileStat.isDir] using directory⟩
      oneParent := by
        intro node above other name further _ first second
        obtain ⟨index, entry, listed, parent, _, rfl⟩ := entry_of_findChild image first
        obtain ⟨otherIndex, otherEntry, otherListed, otherParent, _, same⟩ := entry_of_findChild image second
        obtain ⟨bound, _⟩ := List.getElem?_eq_some_iff.mp listed
        obtain ⟨otherBound, _⟩ := List.getElem?_eq_some_iff.mp otherListed
        have numbers := congrArg (fun view : InodeView => view.inodeNum.toNat) same
        simp only [UInt32.toNat_ofNat'] at numbers
        obtain rfl : index = otherIndex := by omega
        obtain rfl := Option.some.inj (listed.symm.trans otherListed)
        have places : above.inodeNum = other.inodeNum := by
          simpa [Memfs.reported] using parent.symm.trans otherParent
        cases above
        cases other
        exact congrArg InodeView.mk places } }
  rootDir := by
    intro pi found
    obtain rfl := root_of_entries image found
    have directory : (0o040755 : UInt32) &&& fileTypeMask = 0o040000 := by decide
    exact ⟨⟨(memfs.reported ⟨0⟩).toUInt64, 0o040755, 0⟩,
      by simp only [Memfs.getattr, image, Dwarfs.ofEntries, ↓reduceIte, Except.map],
      by simp [FileStat.isDir, directory]⟩
  topmost := by
    intro pi inode name root found
    obtain rfl := root_of_entries image root
    obtain ⟨index, entry, listed, _, _, same⟩ := entry_of_findChild image found
    obtain ⟨bound, _⟩ := List.getElem?_eq_some_iff.mp listed
    have number := congrArg (fun view : InodeView => view.inodeNum.toNat) same
    simp only [UInt32.toNat_ofNat', UInt32.toNat_zero] at number
    omega
  numbers := by
    intro pi directory
    obtain ⟨st, stat, _⟩ := directory
    have bound := number_of_getattr image stat
    rw [UInt32.lt_iff_toNat_lt]
    exact Nat.lt_of_le_of_lt bound small

/-! ## Images with bytes in their files -/

/-- The image with bytes in its inodes and lists of the entries of its directories. -/
def Memfs.stocked (memfs : Memfs) (bytes : UInt32 → List UInt8) (listed : UInt32 → List (InodeView × Str)) :
    Memfs :=
  { memfs with
    fs :=
      { memfs.fs with
        getattr := fun view =>
          (memfs.fs.getattr view).map fun attr => { attr with size := (bytes view.inodeNum).length }
        opendir := fun view => some ⟨view.inodeNum⟩
        dirsize := fun dir => (listed dir.inode).length
        readdir := fun dir offset => (listed dir.inode)[offset]?
        read := fun inode size start => .ok (((bytes inode).drop start).take size) } }

section Stocked

variable {bytes : UInt32 → List UInt8} {listed : UInt32 → List (InodeView × Str)}

theorem stocked_getattr : (memfs.stocked bytes listed).getattr pi =
    (memfs.getattr pi).map fun st => { st with size := (bytes pi.inodeNum).length } := by
  cases got : memfs.fs.getattr pi with
  | error errno => simp only [Memfs.getattr, Memfs.stocked, got, Except.map]
  | ok attr =>
      simp only [Memfs.getattr, Memfs.stocked, got, Except.map]
      rfl

theorem stocked_linkTree : (memfs.stocked bytes listed).linkTree = memfs.linkTree := by
  have readlink : (memfs.stocked bytes listed).fs.readlink = memfs.fs.readlink := rfl
  have child : (memfs.stocked bytes listed).linkTree.child = memfs.linkTree.child := rfl
  have isDir : (memfs.stocked bytes listed).linkTree.isDir = memfs.linkTree.isDir := by
    funext pi
    simp only [Memfs.linkTree, stocked_getattr]
    cases memfs.getattr pi with
    | error errno => simp [Except.map]
    | ok st => simp [Except.map, FileStat.isDir]
  have target : (memfs.stocked bytes listed).linkTree.target = memfs.linkTree.target := by
    funext pi
    simp only [Memfs.linkTree, stocked_getattr, readlink]
    cases memfs.getattr pi with
    | error errno => simp only [Except.map]
    | ok st =>
        simp only [Except.map]
        cases memfs.fs.readlink pi with
        | error errno => rfl
        | ok target => rfl
  rw [LinkTree.mk.injEq]
  exact ⟨isDir, child, target⟩

theorem Memfs.Whole.stocked (whole : memfs.Whole) : (memfs.stocked bytes listed).Whole where
  stores :=
    { attributes := by
        intro inode name child found
        obtain ⟨st, stat⟩ := whole.stores.attributes found
        exact ⟨_, by rw [stocked_getattr, stat]; rfl⟩
      targets := by
        intro pi st stat link
        rw [stocked_getattr] at stat
        cases before : memfs.getattr pi with
        | error errno => simp [before, Except.map] at stat
        | ok plain =>
            simp only [before, Except.map, Except.ok.injEq] at stat
            exact whole.stores.targets before (by rw [← stat] at link; exact link)
      named := whole.stores.named
      proper := by rw [stocked_linkTree]; exact whole.stores.proper }
  rootDir := by rw [stocked_linkTree]; exact whole.rootDir
  topmost := whole.topmost
  numbers := by rw [stocked_linkTree]; exact whole.numbers

end Stocked

end Tebako
