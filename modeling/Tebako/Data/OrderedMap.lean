import Std.Data.ExtTreeMap.Lemmas

namespace Tebako.Data.OrderedMap

/-! Ordered maps as values: which updates of a map are the same. -/

open Std

variable {α : Type u} {β : Type v} {cmp : α → α → Ordering} [TransCmp cmp]
variable {map : ExtTreeMap α β cmp} {key other : α} {value result : β}

theorem mem_of_getElem? (found : map[key]? = some value) : key ∈ map :=
  ExtTreeMap.mem_iff_isSome_getElem?.mpr (by rw [found]; rfl)

theorem exists_of_mem (present : key ∈ map) : ∃ value, map[key]? = some value :=
  Option.isSome_iff_exists.mp (ExtTreeMap.mem_iff_isSome_getElem?.mp present)

variable [LawfulEqCmp cmp]

theorem getElem?_insert_ne (different : other ≠ key) : (map.insert key value)[other]? = map[other]? := by
  rw [ExtTreeMap.getElem?_insert]
  exact if_neg fun same => different (LawfulEqCmp.eq_of_compare same).symm

theorem getElem?_erase_ne (different : other ≠ key) : (map.erase key)[other]? = map[other]? := by
  rw [ExtTreeMap.getElem?_erase]
  exact if_neg fun same => different (LawfulEqCmp.eq_of_compare same).symm

theorem getElem?_insert_iff : (map.insert key value)[other]? = some result ↔
    other = key ∧ value = result ∨ other ≠ key ∧ map[other]? = some result := by
  by_cases same : other = key
  · subst same
    simp
  · simp [getElem?_insert_ne same, same]

theorem getElem?_erase_iff : (map.erase key)[other]? = some result ↔
    other ≠ key ∧ map[other]? = some result := by
  by_cases same : other = key
  · subst same
    simp
  · simp [getElem?_erase_ne same, same]

theorem mem_insert_iff : other ∈ map.insert key value ↔ other = key ∨ other ∈ map := by
  rw [ExtTreeMap.mem_insert, LawfulEqCmp.compare_eq_iff_eq, eq_comm]

theorem mem_erase_iff : other ∈ map.erase key ↔ other ≠ key ∧ other ∈ map := by
  rw [ExtTreeMap.mem_erase, ne_eq, LawfulEqCmp.compare_eq_iff_eq, eq_comm]

theorem insertIfNew_of_mem (present : key ∈ map) (value : β) : map.insertIfNew key value = map := by
  apply ExtTreeMap.ext_getElem?
  intro other
  rw [ExtTreeMap.getElem?_insertIfNew]
  split
  · rename_i new
    exact absurd present new.2
  · rfl

theorem insertIfNew_of_not_mem (absent : key ∉ map) (value : β) :
    map.insertIfNew key value = map.insert key value := by
  apply ExtTreeMap.ext_getElem?
  intro other
  rw [ExtTreeMap.getElem?_insertIfNew, ExtTreeMap.getElem?_insert]
  simp only [absent, not_false_eq_true, and_true]

theorem modify_of_getElem? (found : map[key]? = some value) (f : β → β) :
    map.modify key f = map.insert key (f value) := by
  apply ExtTreeMap.ext_getElem?
  intro other
  rw [ExtTreeMap.getElem?_modify, ExtTreeMap.getElem?_insert, found]
  rfl

theorem insert_insert (map : ExtTreeMap α β cmp) (key : α) (before after : β) :
    (map.insert key before).insert key after = map.insert key after := by
  apply ExtTreeMap.ext_getElem?
  intro other
  simp only [ExtTreeMap.getElem?_insert]
  split <;> rfl

theorem erase_insert (map : ExtTreeMap α β cmp) (key : α) (value : β) :
    (map.insert key value).erase key = map.erase key := by
  apply ExtTreeMap.ext_getElem?
  intro other
  simp only [ExtTreeMap.getElem?_insert, ExtTreeMap.getElem?_erase]
  split <;> rfl

theorem erase_of_not_mem (absent : key ∉ map) : map.erase key = map := by
  apply ExtTreeMap.ext_getElem?
  intro other
  rw [ExtTreeMap.getElem?_erase]
  split
  · rename_i same
    rw [← LawfulEqCmp.eq_of_compare same, ExtTreeMap.getElem?_eq_none absent]
  · rfl

theorem insert_eq_self_iff : map.insert key value = map ↔ map[key]? = some value := by
  constructor
  · intro same
    rw [← same, ExtTreeMap.getElem?_insert_self]
  · intro found
    apply ExtTreeMap.ext_getElem?
    intro other
    rw [ExtTreeMap.getElem?_insert]
    split
    · rename_i same
      rw [← LawfulEqCmp.eq_of_compare same, found]
    · rfl

theorem erase_ne_self (present : key ∈ map) : map.erase key ≠ map := by
  intro same
  rw [← same] at present
  simp at present

theorem insert_ne_self (absent : key ∉ map) (value : β) : map.insert key value ≠ map := by
  intro same
  exact absent (mem_of_getElem? (insert_eq_self_iff.mp same))

end Tebako.Data.OrderedMap
