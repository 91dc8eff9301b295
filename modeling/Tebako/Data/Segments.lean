import Mathlib.Algebra.GroupWithZero.Nat
import Mathlib.Data.List.SplitLengths

namespace Tebako.Data.Segments

/-! A stretch that ends at a limit, taken in segments of given lengths. The
first segment that comes out empty is the last one. -/

/-- The segments that are asked for, with the place where each of them starts. -/
def ranges (limit : Nat) : List Nat → Nat → List (Nat × Nat)
  | [], _ => []
  | len :: rest, pos =>
      (len, pos) :: if min len (limit - pos) = 0 then [] else ranges limit rest (pos + min len (limit - pos))

/-- How much they come to together. -/
def taken (limit : Nat) : List Nat → Nat → Nat
  | [], _ => 0
  | len :: rest, pos =>
      if min len (limit - pos) = 0 then 0
      else min len (limit - pos) + taken limit rest (pos + min len (limit - pos))

/-- An empty segment comes before the limit, and segments that are not empty after it. -/
def Gap (limit : Nat) (lens : List Nat) (pos : Nat) : Prop :=
  ∃ before after, lens = before ++ 0 :: after ∧ 0 < after.sum ∧ pos + before.sum < limit

variable {limit pos len : Nat} {lens rest : List Nat} {α : Type u} {list : List α}

theorem not_gap_nil : ¬ Gap limit [] pos := by
  intro gap
  obtain ⟨before, after, same, _⟩ := gap
  simp at same

theorem gap_cons : Gap limit (len :: rest) pos ↔
    (len = 0 ∧ 0 < rest.sum ∧ pos < limit) ∨ Gap limit rest (pos + len) := by
  constructor
  · intro gap
    obtain ⟨before, after, same, more, inside⟩ := gap
    cases before with
    | nil =>
        cases same
        exact .inl ⟨rfl, more, inside⟩
    | cons head before =>
        cases same
        rw [List.sum_cons, ← Nat.add_assoc] at inside
        exact .inr ⟨before, after, rfl, more, inside⟩
  · intro parts
    rcases parts with ⟨rfl, more, inside⟩ | ⟨before, after, rfl, more, inside⟩
    · exact ⟨[], rest, rfl, more, inside⟩
    · refine ⟨len :: before, after, rfl, more, ?_⟩
      rw [List.sum_cons]
      omega

theorem not_gap_of_ended (ended : limit ≤ pos) : ¬ Gap limit lens pos := by
  intro gap
  obtain ⟨before, after, _, _, inside⟩ := gap
  omega

theorem Gap.sum_pos (gap : Gap limit lens pos) : 0 < lens.sum := by
  obtain ⟨before, after, rfl, more, _⟩ := gap
  rw [List.sum_append, List.sum_cons]
  omega

theorem taken_of_ended (ended : limit ≤ pos) : taken limit lens pos = 0 := by
  cases lens with
  | nil => rfl
  | cons len rest => exact if_pos (by omega)

theorem taken_le : taken limit lens pos ≤ min lens.sum (limit - pos) := by
  induction lens generalizing pos with
  | nil => exact Nat.zero_le _
  | cons len rest ih =>
      have later := @ih (pos + min len (limit - pos))
      rw [taken, List.sum_cons]
      split <;> omega

/-- All that there is comes out, but for a gap. -/
theorem taken_eq_iff : taken limit lens pos = min lens.sum (limit - pos) ↔ ¬ Gap limit lens pos := by
  induction lens generalizing pos with
  | nil => simp [taken, not_gap_nil]
  | cons len rest ih =>
      rw [gap_cons, taken, List.sum_cons]
      by_cases empty : min len (limit - pos) = 0
      · rw [if_pos empty]
        by_cases ended : limit ≤ pos
        · have none := @not_gap_of_ended limit (pos + len) rest (by omega)
          simp only [none, or_false]
          omega
        · have zero : len = 0 := by omega
          subst zero
          by_cases more : 0 < rest.sum
          · have lost : (0 = 0 ∧ 0 < rest.sum ∧ pos < limit) := ⟨rfl, more, Nat.lt_of_not_le ended⟩
            simp only [lost, and_self, true_or, not_true_eq_false, iff_false]
            omega
          · have none : ¬ Gap limit rest (pos + 0) := fun gap => more gap.sum_pos
            simp only [more, none, false_and, and_false, or_false, not_false_eq_true, iff_true]
            omega
      · rw [if_neg empty]
        have later := @ih (pos + min len (limit - pos))
        by_cases whole : len ≤ limit - pos
        · rw [Nat.min_eq_left whole] at later empty ⊢
          have same : ¬ (len = 0 ∧ 0 < rest.sum ∧ pos < limit) := fun both => empty both.1
          simp only [same, false_or, ← later]
          omega
        · have none := @not_gap_of_ended limit (pos + len) rest (by omega)
          have ended := @taken_of_ended limit (pos + min len (limit - pos)) rest (by omega)
          simp only [ended, none, or_false]
          omega

theorem splitLengths_take_sum : lens.splitLengths (list.take lens.sum) = lens.splitLengths list := by
  induction lens generalizing list with
  | nil => rfl
  | cons len rest ih =>
      rw [List.splitLengths_cons, List.splitLengths_cons, List.sum_cons, List.take_take,
        Nat.min_eq_left (Nat.le_add_right _ _), List.drop_take, Nat.add_sub_cancel_left, ih]

theorem splitLengths_empty : lens.splitLengths ([] : List α) = lens.map fun _ => [] := by
  induction lens with
  | nil => rfl
  | cons len rest ih => rw [List.splitLengths_cons, List.take_nil, List.drop_nil, ih, List.map_cons]

theorem splitLengths_of_sum_zero (none : lens.sum = 0) :
    lens.splitLengths list = lens.map fun _ => [] := by
  rw [← splitLengths_take_sum, none, List.take_zero, splitLengths_empty]

end Tebako.Data.Segments
