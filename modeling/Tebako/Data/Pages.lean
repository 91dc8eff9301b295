import Mathlib.Data.Nat.Init
import Mathlib.Tactic.Ring

namespace Tebako.Data.Pages

/-! Ranges of addresses, and the pages that they meet. -/

/-- The page and the range have an address in common. -/
def Meets (pageSize page first stop : Nat) : Prop :=
  first < stop ∧ page * pageSize < stop ∧ first < (page + 1) * pageSize

instance {pageSize page first stop : Nat} : Decidable (Meets pageSize page first stop) :=
  inferInstanceAs (Decidable (_ ∧ _))

/-- The address lies in the page, behind its beginning. -/
def Inside (pageSize page address : Nat) : Prop :=
  page * pageSize < address ∧ address < (page + 1) * pageSize

variable {pageSize page base low high offset size : Nat}

/-- A range that is begun where the page of its first address begins meets that
page even if it was empty before, unless the page begins there. -/
theorem meets_floor_iff (positive : 0 < pageSize) :
    Meets pageSize page (offset / pageSize * pageSize) (offset + size) ↔
      Meets pageSize page offset (offset + size) ∨ Inside pageSize page offset := by
  have floor := Nat.div_mul_le_self offset pageSize
  have ceil : offset < (offset / pageSize + 1) * pageSize := by
    rw [Nat.mul_comm]
    exact Nat.lt_mul_div_succ offset positive
  constructor
  · intro meets
    obtain ⟨_, before, behind⟩ := meets
    have reached : offset / pageSize ≤ page :=
      Nat.lt_succ_iff.mp ((Nat.mul_lt_mul_right positive).mp behind)
    rcases reached.lt_or_eq with later | rfl
    · have further := Nat.mul_le_mul_right pageSize (show offset / pageSize + 1 ≤ page from later)
      have next := Nat.mul_le_mul_right pageSize (show page ≤ page + 1 from page.le_succ)
      exact .inl ⟨by omega, before, by omega⟩
    · rcases Nat.eq_zero_or_pos size with rfl | some
      · exact .inr ⟨before, ceil⟩
      · exact .inl ⟨by omega, before, ceil⟩
  · intro acted
    rcases acted with ⟨some, before, behind⟩ | ⟨before, behind⟩
    · exact ⟨by omega, before, by omega⟩
    · rw [Nat.div_eq_of_lt_le before.le behind]
      exact ⟨by omega, by omega, by omega⟩

/-- Rounding both ends down, with the length counted from the beginning that has
been rounded down. -/
theorem rounded_length (positive : 0 < pageSize) :
    size + offset % pageSize - (size + offset % pageSize) % pageSize =
      (offset + size) / pageSize * pageSize - offset / pageSize * pageSize := by
  have whole := Nat.div_add_mod' (size + offset % pageSize) pageSize
  have split := Nat.div_add_mod' offset pageSize
  have total : (offset + size) / pageSize = offset / pageSize + (size + offset % pageSize) / pageSize := by
    have sum : offset + size = size + offset % pageSize + offset / pageSize * pageSize := by omega
    rw [sum, Nat.add_mul_div_right _ _ positive, Nat.add_comm]
  rw [total, Nat.add_mul]
  omega

/-- What meets a range of blocks meets one of the blocks. -/
theorem meets_blocks (positive : 0 < pageSize) :
    Meets pageSize page (base + low * pageSize) (base + high * pageSize) ↔
      ∃ block, low ≤ block ∧ block < high ∧
        Meets pageSize page (base + block * pageSize) (base + (block + 1) * pageSize) := by
  constructor
  · intro meets
    obtain ⟨some, before, behind⟩ := meets
    have more : low < high := Nat.lt_of_mul_lt_mul_right (Nat.add_lt_add_iff_left.mp some)
    induction gap : high - low generalizing low with
    | zero => omega
    | succ gap ih =>
        have next : (low + 1) * pageSize = low * pageSize + pageSize := Nat.succ_mul _ _
        have after : (page + 1) * pageSize = page * pageSize + pageSize := Nat.succ_mul _ _
        by_cases here : page * pageSize < base + (low + 1) * pageSize
        · exact ⟨low, Nat.le_refl _, more, by omega, here, behind⟩
        · have others : low + 1 < high := by
            refine Nat.lt_of_le_of_ne more fun last => here ?_
            rw [last]
            exact before
          have shorter : (low + 1) * pageSize < high * pageSize := Nat.mul_lt_mul_of_pos_right others positive
          obtain ⟨block, later, within, meets⟩ := ih (by omega) (by omega) others (by omega)
          exact ⟨block, by omega, within, meets⟩
  · intro met
    obtain ⟨block, later, within, some, before, behind⟩ := met
    have first := Nat.mul_le_mul_right pageSize later
    have last := Nat.mul_le_mul_right pageSize (show block + 1 ≤ high from within)
    exact ⟨by omega, by omega, by omega⟩

/-- Where the blocks begin at a page, each of them is one. -/
theorem meets_block_iff {index block : Nat} (positive : 0 < pageSize) :
    Meets pageSize (index + page) (index * pageSize + block * pageSize) (index * pageSize + (block + 1) * pageSize) ↔
      page = block := by
  rw [← Nat.add_mul, ← Nat.add_mul, Meets, Nat.mul_lt_mul_right positive, Nat.mul_lt_mul_right positive,
    Nat.mul_lt_mul_right positive]
  omega

/-- The last address of a block lies in a range exactly when the block lies
between the rounded ends. -/
theorem last_in_range (positive : 0 < pageSize) {block stop : Nat} :
    offset < (block + 1) * pageSize ∧ (block + 1) * pageSize ≤ stop ↔
      offset / pageSize ≤ block ∧ block < stop / pageSize := by
  rw [← Nat.div_lt_iff_lt_mul positive, ← Nat.le_div_iff_mul_le positive]
  omega

end Tebako.Data.Pages
