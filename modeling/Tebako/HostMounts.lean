import Tebako.FileIo
import Tebako.Ownership

namespace Tebako

open Data Data.Loop Data.LexicalPath

/-! Folders of the host that are mounted in a directory of the memfs. -/

/-- The lookup has not come to a name that is a mount point. -/
def Unmounted (w : World) : FindState → Prop
  | .start _ _ _ => True
  | .walk memfs pi _ rest => ∀ name ∈ rest.head?, name.chars ≠ [] →
      w.mountTable[(memfs.reported pi, name.chars)]? = none

/-- The path leads to this directory through directories and relative links only. -/
structure LeadsPlainly (w : World) (root : Memfs) (dir : CString) (st : FileStat) : Prop where
  isDir : st.isDir = true
  returned : Returns (findBody w true)
    (.start root root.dwarfsRootInode (dir.drop (tebakoMountPointLength + 1))) (.ok (.inode st))
  unmounted : ∀ state, Relation.ReflTransGen (Moves (findBody w true))
    (.start root root.dwarfsRootInode (dir.drop (tebakoMountPointLength + 1))) state → Unmounted w state

/-- In a directory of the memfs that `dir` leads to, the first name of `tail` is a
mount point, and with the other names its folder of the host is not below the
mount point of the memfs. -/
structure MountsHost (w : World) (root : Memfs) (dir tail : CString) (st : FileStat) (target : CString)
    (rest : List CString) : Prop where
  normal : dir.normal = dir
  below : Below tebakoMountPoint dir.chars
  leads : LeadsPlainly w root dir st
  inner : Inner tail
  named : tail.chars ≠ dot
  mount : ∃ name, tail.components = name :: rest ∧
    w.mountTable[(st.ino.toUInt32, name.chars)]? = some (.path target)
  absolute : isAbsolute target.chars = true
  outside : isTebakoPath (rest.foldl CString.join target).normal = false

section Transparent

variable {w : World} {root : Memfs} {dir tail target given path : CString} {st : FileStat}
variable {rest : List CString} {follow : Bool} {state : FindState} {fuel : Nat}

theorem Unmounted.undotted (unmounted : Unmounted w state) : Undotted w state := by
  cases state with
  | start memfs inode path => trivial
  | walk memfs pi seen rest =>
      intro name first dots
      refine unmounted name first ?_
      rcases dots with same | same <;> rw [same] <;> decide

/-- The lookup comes to the directory, with the names of `tail` left. -/
theorem MountsHost.arrives (mounts : MountsHost w root dir tail st target rest)
    (held : w.memfsTable[(0 : UInt32)]? = some root) (images : w.RegularImages) :
    ∃ memfs pi more last,
      Relation.ReflTransGen (Moves (findBody w follow))
          (.start root root.dwarfsRootInode ((dir.join tail).normal.drop (tebakoMountPointLength + 1)))
          (.walk memfs pi st more) ∧
        Arrives w mounts.inner.addition st memfs pi more last := by
  have further : Further w mounts.inner.addition
      (.start root root.dwarfsRootInode (dir.drop (tebakoMountPointLength + 1)))
      (.start root root.dwarfsRootInode ((dir.join tail).normal.drop (tebakoMountPointLength + 1))) :=
    .start ⟨0, held⟩ rfl (mounts.inner.extends_normal mounts.below mounts.normal)
  obtain ⟨memfs, pi, _, more, last, _, _, reached, arrived⟩ :=
    arrives_undotted images (isLnk_of_isDir mounts.leads.isDir) mounts.leads.returned
      (fun state reached => (mounts.leads.unmounted state reached).undotted) further
  exact ⟨memfs, pi, more, last, reached, arrived⟩

theorem components_clean (relative : isAbsolute path.chars = false) :
    ∀ name ∈ path.components, '/' ∉ name.chars := by
  intro name member
  have listed : name.chars ∈ components path.chars := path.components_chars ▸ List.mem_map_of_mem member
  rw [components_of_relative relative, List.mem_append] at listed
  rcases listed with inside | after
  · exact (mem_names inside).2
  · split at after
    · rw [List.mem_singleton.mp after]
      exact List.not_mem_nil
    · cases after

/-- What is left begins with the mount point, which is looked up before any entry
of the image. -/
theorem MountsHost.answers (mounts : MountsHost w root dir tail st target rest)
    (held : w.memfsTable[(0 : UInt32)]? = some root) (images : w.RegularImages) :
    Answers w follow
      (.start root root.dwarfsRootInode ((dir.join tail).normal.drop (tebakoMountPointLength + 1)))
      (.ok (.linkOutside (rest.foldl CString.join target).normal st)) := by
  obtain ⟨memfs, pi, more, last, reached, arrived⟩ := @MountsHost.arrives _ _ _ _ _ _ _ follow mounts held images
  obtain ⟨name, split, mount⟩ := mounts.mount
  have here : st.ino.toUInt32 = memfs.reported pi := by
    rw [Memfs.getattr_ino arrived.stat]
    simp
  have clean : ∀ name ∈ rest, '/' ∉ name.chars := fun other member =>
    components_clean mounts.inner.relative other (by simp [split, member])
  have absolute : isAbsolute (processLink target rest).chars = true := by
    rw [processLink, CString.normal_chars, isAbsolute_lexicallyNormal, CString.isAbsolute_foldl_join clean,
      mounts.absolute]
  have left : FindLeave w follow (.walk memfs pi st (name :: rest)) (processLink target rest) st :=
    .mount (CString.components_head mounts.inner.relative split) (here ▸ mount)
  rw [answers_of_moves reached, arrived.answers mounts.inner mounts.named, split]
  refine ⟨_, returns_of_halt (findBody_of_leave left absolute), 0, ?_⟩
  have outside := mounts.outside
  simp only [followAbs, processLink, outside, Bool.false_eq_true, ↓reduceIte]

theorem MountsHost.found (mounts : MountsHost w root dir tail st target rest)
    (held : w.memfsTable[(0 : UInt32)]? = some root) (images : w.RegularImages) :
    ∃ enough, ∀ fuel ≥ enough, ∀ follow,
      findInodeRootVia (findInodeAbs w fuel) root (dir.join tail).normal follow =
        some (.ok (.linkOutside (rest.foldl CString.join target).normal st)) := by
  have adjusted := adjustedPath_of_below (mounts.inner.below_normal mounts.below mounts.normal)
  obtain ⟨followed, ran⟩ := answers_start_iff.mp (@MountsHost.answers _ _ _ _ _ _ _ true mounts held images)
  obtain ⟨kept, ranKept⟩ := answers_start_iff.mp (@MountsHost.answers _ _ _ _ _ _ _ false mounts held images)
  refine ⟨max followed kept, fun fuel enough follow => ?_⟩
  simp only [findInodeRootVia, adjusted]
  cases follow with
  | true => exact findInodeAbs_mono (Nat.le_trans (Nat.le_max_left _ _) enough) ran
  | false => exact findInodeAbs_mono (Nat.le_trans (Nat.le_max_right _ _) enough) ranKept

end Transparent

end Tebako
