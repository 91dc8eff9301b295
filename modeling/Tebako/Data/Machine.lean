import Mathlib.Logic.Basic

namespace Tebako.Data

/-! Systems that take one operation at a time and answer it. -/

abbrev Machine (σ : Type u) (ι : Type v) (ο : Type w) := ι → σ → ο × σ

namespace Machine

variable {σ : Type u} {ι : Type v} {ο : Type w} {step : Machine σ ι ο}
variable {allowed stronger : σ → ι → Prop} {start state : σ}

/-- The states that runs of allowed operations lead to. -/
inductive Reaches (step : Machine σ ι ο) (allowed : σ → ι → Prop) (start : σ) : σ → Prop where
  | start : Reaches step allowed start start
  | step {state : σ} (op : ι) (before : Reaches step allowed start state)
      (permitted : allowed state op) : Reaches step allowed start (step op state).2

theorem Reaches.invariant {invariant : σ → Prop} (reached : Reaches step allowed start state)
    (initial : invariant start)
    (kept : ∀ state op, invariant state → allowed state op → invariant (step op state).2) :
    invariant state := by
  induction reached with
  | start => exact initial
  | step op _ permitted ih => exact kept _ op ih permitted

def after (step : Machine σ ι ο) : List ι → σ → σ
  | [], state => state
  | op :: rest, state => after step rest (step op state).2

/-- Each operation of the list is allowed where it comes. -/
def Allows (step : Machine σ ι ο) (allowed : σ → ι → Prop) : List ι → σ → Prop
  | [], _ => True
  | op :: rest, state => allowed state op ∧ Allows step allowed rest (step op state).2

theorem Reaches.after {ops : List ι} (reached : Reaches step allowed start state)
    (permitted : Allows step allowed ops state) : Reaches step allowed start (after step ops state) := by
  induction ops generalizing state with
  | nil => exact reached
  | cons op rest ih => exact ih (.step op reached permitted.1) permitted.2

def answers (step : Machine σ ι ο) : List ι → σ → List ο
  | [], _ => []
  | op :: rest, state => (step op state).1 :: answers step rest (step op state).2

/-- Related states answer alike and stay related. -/
structure Simulates {τ : Type u'} (step : Machine σ ι ο) (model : Machine τ ι ο)
    (allowed : ι → Prop) (related : σ → τ → Prop) : Prop where
  answer : ∀ state image op, related state image → allowed op →
    (step op state).1 = (model op image).1
  next : ∀ state image op, related state image → allowed op →
    related (step op state).2 (model op image).2

theorem Simulates.answers_eq {τ : Type u'} {model : Machine τ ι ο} {allowed : ι → Prop}
    {related : σ → τ → Prop} (simulates : Simulates step model allowed related)
    {ops : List ι} {image : τ} (permitted : ∀ op ∈ ops, allowed op)
    (initial : related state image) :
    answers step ops state = answers model ops image := by
  induction ops generalizing state image with
  | nil => rfl
  | cons op rest ih =>
      have here := permitted op (by simp)
      have same := simulates.answer state image op initial here
      have later := ih (fun op member => permitted op (by simp [member]))
        (simulates.next state image op initial here)
      rw [answers, answers, same, later]

/-! What some operations set and others clear is there when it has been set and
has not been cleared since. -/

/-- The last operation that sets is not followed by one that clears. -/
def SetLast (sets clears : ι → Prop) (ops : List ι) : Prop :=
  ∃ before op later, ops = before ++ op :: later ∧ sets op ∧ ∀ other ∈ later, ¬ clears other

theorem held_after_iff {held : σ → Prop} {sets clears : ι → Prop} {ops : List ι}
    (kept : ∀ op ∈ ops, ∀ state, held (step op state).2 ↔ sets op ∨ held state ∧ ¬ clears op) :
    held (after step ops state) ↔ SetLast sets clears ops ∨ held state ∧ ∀ op ∈ ops, ¬ clears op := by
  induction ops generalizing state with
  | nil => simp [after, SetLast]
  | cons op rest ih =>
      rw [after, ih fun other member => kept other (by simp [member]), kept op (by simp)]
      constructor
      · intro holds
        rcases holds with ⟨before, last, later, rfl, set, clear⟩ | ⟨set | ⟨first, clear⟩, clears⟩
        · exact .inl ⟨op :: before, last, later, rfl, set, clear⟩
        · exact .inl ⟨[], op, rest, rfl, set, clears⟩
        · exact .inr ⟨first, List.forall_mem_cons.mpr ⟨clear, clears⟩⟩
      · intro holds
        rcases holds with ⟨before, last, later, split, set, clear⟩ | ⟨first, clears⟩
        · cases before with
          | nil =>
              cases split
              exact .inr ⟨.inl set, clear⟩
          | cons other before =>
              cases split
              exact .inl ⟨before, last, later, rfl, set, clear⟩
        · obtain ⟨clear, clears⟩ := List.forall_mem_cons.mp clears
          exact .inr ⟨.inr ⟨first, clear⟩, clears⟩

end Machine

end Tebako.Data
