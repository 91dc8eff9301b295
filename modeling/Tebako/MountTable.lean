import Std.Data.ExtTreeMap.Lemmas
import Tebako.Common

namespace Tebako

/-! The table of mount points: a directory and a name in it, and what to find
there instead. -/

abbrev TebakoMountPoint := UInt32 × Str

inductive TebakoMountTarget where
  | path (target : CString)
  | memfs (index : UInt32)
deriving DecidableEq

def mountPointOrder : TebakoMountPoint → TebakoMountPoint → Ordering :=
  compareLex (compareOn Prod.fst) (compareOn Prod.snd)

instance : Std.TransCmp mountPointOrder := by
  unfold mountPointOrder
  infer_instance

instance : Std.LawfulEqCmp mountPointOrder where
  eq_of_compare {left right} same := by
    simp only [mountPointOrder, compareLex, compareOn, Ordering.then_eq_eq,
      Std.compare_eq_iff_eq] at same
    exact Prod.ext same.1 same.2

abbrev MountTable := Std.ExtTreeMap TebakoMountPoint TebakoMountTarget mountPointOrder

/-- `emplace`: a mount point that is taken keeps its target. -/
def MountTable.insert (table : MountTable) (mountPoint : TebakoMountPoint)
    (target : TebakoMountTarget) : Bool × MountTable :=
  (decide (mountPoint ∉ table), table.insertIfNew mountPoint target)

end Tebako
