import Mathlib.Logic.Function.Basic
import Tebako.Data.Machine

namespace Tebako.Data

/-! Tables of objects that share nothing: each operation names a key, and
concerns the object under this key only.

Seen from one key, a run of the table is the run of one object with the
operations on it, whatever is done under the other keys in between. -/

namespace Machine

variable {σ : Type u} {τ : Type v} {ι : Type w} {ι' : Type x} {ο : Type y} {ο' : Type z}
variable {step : Machine σ ι ο} {model : Machine τ ι' ο'} {translate : ι → ι'} {render : ι → ο' → ο}
variable {allowed : τ → ι' → Prop} {related : σ → τ → Prop} {state : σ} {image : τ}

/-- Each operation is answered as its translation is by the model, where the
model allows it. -/
structure Follows (step : Machine σ ι ο) (model : Machine τ ι' ο') (translate : ι → ι') (render : ι → ο' → ο)
    (allowed : τ → ι' → Prop) (related : σ → τ → Prop) : Prop where
  answer : ∀ {state image} op, related state image → allowed image (translate op) →
    (step op state).1 = render op (model (translate op) image).1
  next : ∀ {state image} op, related state image → allowed image (translate op) →
    related (step op state).2 (model (translate op) image).2

theorem Follows.answers_eq (follows : Follows step model translate render allowed related) {ops : List ι}
    (initial : related state image) (permitted : Allows model allowed (ops.map translate) image) :
    answers step ops state = List.zipWith render ops (answers model (ops.map translate) image) := by
  induction ops generalizing state image with
  | nil => rfl
  | cons op rest ih =>
      obtain ⟨here, later⟩ := permitted
      rw [List.map_cons, answers, answers, List.zipWith_cons_cons, follows.answer op initial here,
        ih (follows.next op initial here) later]

theorem Follows.after_related (follows : Follows step model translate render allowed related) {ops : List ι}
    (initial : related state image) (permitted : Allows model allowed (ops.map translate) image) :
    related (after step ops state) (after model (ops.map translate) image) := by
  induction ops generalizing state image with
  | nil => exact initial
  | cons op rest ih => exact ih (follows.next op initial permitted.1) permitted.2

end Machine

namespace Keyed

variable {κ : Type u} {ν : Type v} {ι : Type w} {ο : Type x} {σ : Type y} [DecidableEq κ]

/-- The operations on one key. -/
def opsAt (key : κ) (ops : List (κ × ι)) : List ι :=
  ops.filterMap fun op => if op.1 = key then some op.2 else none

/-- The answers to the operations on one key. -/
def answersAt (key : κ) : List (κ × ι) → List ο → List ο
  | op :: ops, answer :: rest =>
      if op.1 = key then answer :: answersAt key ops rest else answersAt key ops rest
  | _, _ => []

/-- What `get` finds under a key is a machine of its own. -/
structure Independent (step : Machine σ (κ × ι) ο) (get : σ → κ → ν) (own : κ → Machine ν ι ο) : Prop where
  answer : ∀ key op state, (step (key, op) state).1 = (own key op (get state key)).1
  here : ∀ key op state, get (step (key, op) state).2 key = (own key op (get state key)).2
  elsewhere : ∀ key op state other, other ≠ key → get (step (key, op) state).2 other = get state other

variable {step : Machine σ (κ × ι) ο} {get : σ → κ → ν} {own : κ → Machine ν ι ο}

theorem opsAt_cons_same (key : κ) (op : ι) (rest : List (κ × ι)) :
    opsAt key ((key, op) :: rest) = op :: opsAt key rest := by
  simp [opsAt]

theorem opsAt_cons_other {key other : κ} (different : other ≠ key) (op : ι) (rest : List (κ × ι)) :
    opsAt key ((other, op) :: rest) = opsAt key rest := by
  simp [opsAt, different]

theorem Independent.answersAt_eq (independent : Independent step get own) (ops : List (κ × ι)) (state : σ)
    (key : κ) :
    answersAt key ops (Machine.answers step ops state) =
      Machine.answers (own key) (opsAt key ops) (get state key) := by
  induction ops generalizing state with
  | nil => rfl
  | cons op rest ih =>
      obtain ⟨other, op⟩ := op
      rw [Machine.answers, answersAt, ih]
      by_cases same : other = key
      · subst same
        rw [if_pos rfl, opsAt_cons_same, Machine.answers, independent.answer, independent.here]
      · rw [if_neg same, opsAt_cons_other same, independent.elsewhere other op state key (Ne.symm same)]

end Keyed

end Tebako.Data
