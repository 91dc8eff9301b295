import Mathlib.Logic.Relation

namespace Tebako.Data

/-! Loops given by their body.

A body either hands over the next state or stops with a result. `run` executes
it under a step budget; `Returns` forgets the budget. Nothing here assumes that
the loop ends. -/

inductive Step (σ : Type u) (ρ : Type v) where
  | next (state : σ)
  | halt (result : ρ)
deriving Repr, DecidableEq

namespace Loop

variable {σ : Type u} {ρ : Type v} {body : σ → Step σ ρ} {state after : σ} {result other : ρ}

def run (body : σ → Step σ ρ) : Nat → σ → Option ρ
  | 0, _ => none
  | fuel + 1, state =>
      match body state with
      | .next after => run body fuel after
      | .halt result => some result

def Returns (body : σ → Step σ ρ) (state : σ) (result : ρ) : Prop :=
  ∃ fuel, run body fuel state = some result

def Halts (body : σ → Step σ ρ) (state : σ) : Prop :=
  ∃ result, Returns body state result

def Moves (body : σ → Step σ ρ) (before after : σ) : Prop :=
  body before = .next after

theorem run_next (moved : body state = .next after) (fuel : Nat) :
    run body (fuel + 1) state = run body fuel after := by
  simp only [run, moved]

theorem run_halt (stopped : body state = .halt result) (fuel : Nat) :
    run body (fuel + 1) state = some result := by
  simp only [run, stopped]

theorem run_mono {fuel larger : Nat} (enough : fuel ≤ larger)
    (ran : run body fuel state = some result) : run body larger state = some result := by
  induction fuel generalizing state larger with
  | zero => simp [run] at ran
  | succ fuel ih =>
      obtain ⟨larger, rfl⟩ : ∃ rest, larger = rest + 1 := ⟨larger - 1, by omega⟩
      cases moved : body state with
      | next after =>
          rw [run_next moved] at ran ⊢
          exact ih (by omega) ran
      | halt stopped =>
          rw [run_halt moved] at ran ⊢
          exact ran

theorem Returns.unique (first : Returns body state result) (second : Returns body state other) :
    result = other := by
  obtain ⟨fuel, ran⟩ := first
  obtain ⟨larger, ranOther⟩ := second
  have left := run_mono (Nat.le_max_left fuel larger) ran
  have right := run_mono (Nat.le_max_right fuel larger) ranOther
  exact Option.some.inj (left.symm.trans right)

theorem returns_of_halt (stopped : body state = .halt result) : Returns body state result :=
  ⟨1, run_halt stopped 0⟩

theorem returns_iff_of_next (moved : body state = .next after) :
    Returns body state result ↔ Returns body after result := by
  constructor
  · intro returned
    obtain ⟨fuel, ran⟩ := returned
    cases fuel with
    | zero => simp [run] at ran
    | succ fuel => exact ⟨fuel, by rwa [run_next moved] at ran⟩
  · intro returned
    obtain ⟨fuel, ran⟩ := returned
    exact ⟨fuel + 1, by rwa [run_next moved]⟩

theorem returns_iff_of_halt (stopped : body state = .halt other) :
    Returns body state result ↔ result = other :=
  ⟨fun returned => returned.unique (returns_of_halt stopped),
    fun same => same ▸ returns_of_halt stopped⟩

/-- Induction over a finished run: the body's last step, then one step at a
time backwards. -/
@[elab_as_elim]
theorem Returns.rec_on {motive : ∀ state, Returns body state result → Prop}
    (returned : Returns body state result)
    (halt : ∀ state (stopped : body state = .halt result), motive state (returns_of_halt stopped))
    (next : ∀ state after (moved : body state = .next after) (rest : Returns body after result),
      motive after rest → motive state ((returns_iff_of_next moved).mpr rest)) :
    motive state returned := by
  obtain ⟨fuel, ran⟩ := returned
  induction fuel generalizing state with
  | zero => simp [run] at ran
  | succ fuel ih =>
      cases moved : body state with
      | next after =>
          rw [run_next moved] at ran
          exact next state after moved ⟨fuel, ran⟩ (ih ran)
      | halt stopped =>
          rw [run_halt moved] at ran
          exact halt state (by rw [moved, Option.some.inj ran])

theorem Returns.invariant {invariant : σ → Prop} (returned : Returns body state result)
    (kept : ∀ state after, invariant state → body state = .next after → invariant after)
    (initial : invariant state) :
    ∃ last, Relation.ReflTransGen (Moves body) state last ∧ invariant last ∧
      body last = .halt result := by
  induction returned using Returns.rec_on with
  | halt state stopped => exact ⟨state, .refl, initial, stopped⟩
  | next state after moved _ ih =>
      obtain ⟨last, reached, holds, stopped⟩ := ih (kept state after initial moved)
      exact ⟨last, reached.head moved, holds, stopped⟩

/-- Two states that stay related come to results that agree. -/
theorem Returns.related {related : σ → σ → Prop} {agree : ρ → ρ → Prop} (returned : Returns body state result)
    (moves : ∀ {left right after}, related left right → body left = .next after →
      ∃ other, body right = .next other ∧ related after other)
    (halts : ∀ {left right last}, related left right → body left = .halt last →
      ∃ other, body right = .halt other ∧ agree last other)
    {twin : σ} (initial : related state twin) : ∃ other, Returns body twin other ∧ agree result other := by
  induction returned using Returns.rec_on generalizing twin with
  | halt state stopped =>
      obtain ⟨other, stops, agrees⟩ := halts initial stopped
      exact ⟨other, returns_of_halt stops, agrees⟩
  | next state after moved _ ih =>
      obtain ⟨next, moves, kept⟩ := moves initial moved
      obtain ⟨other, returned, agrees⟩ := ih kept
      exact ⟨other, (returns_iff_of_next moves).mpr returned, agrees⟩

theorem returns_of_reaches (reached : Relation.ReflTransGen (Moves body) state after) :
    Returns body state result ↔ Returns body after result := by
  induction reached with
  | refl => exact Iff.rfl
  | tail _ moved ih => exact ih.trans (returns_iff_of_next moved)

/-- A loop stops in one state only. -/
theorem halt_unique {last : σ} (reached : Relation.ReflTransGen (Moves body) state after)
    (stopped : body after = .halt result) (comes : Relation.ReflTransGen (Moves body) state last)
    (halted : body last = .halt other) : after = last := by
  induction reached using Relation.ReflTransGen.head_induction_on with
  | refl =>
      rcases comes.cases_head with rfl | ⟨next, moved, _⟩
      · rfl
      · exact absurd (stopped.symm.trans moved) (by simp)
  | head moved _ ih =>
      rcases comes.cases_head with rfl | ⟨next, same, rest⟩
      · exact absurd (halted.symm.trans moved) (by simp)
      · obtain rfl := Step.next.inj (same.symm.trans moved)
        exact ih rest

theorem forall_reached_of_next {holds : σ → Prop} (moved : body state = .next after)
    (here : holds state)
    (later : ∀ reached, Relation.ReflTransGen (Moves body) after reached → holds reached) :
    ∀ reached, Relation.ReflTransGen (Moves body) state reached → holds reached := by
  intro reached path
  rcases path.cases_head with rfl | ⟨next, first, rest⟩
  · exact here
  · obtain rfl : after = next := Step.next.inj (moved.symm.trans first)
    exact later reached rest

theorem forall_reached_of_halt {holds : σ → Prop} (stopped : body state = .halt result)
    (here : holds state) : ∀ reached, Relation.ReflTransGen (Moves body) state reached →
    holds reached := by
  intro reached path
  rcases path.cases_head with rfl | ⟨next, first, _⟩
  · exact here
  · exact absurd (stopped.symm.trans first) (by simp)

/-- Two bodies that agree on all states a run comes to have the same results. -/
theorem returns_iff_of_agree {twin : σ → Step σ ρ}
    (agree : ∀ reached, Relation.ReflTransGen (Moves body) state reached →
      twin reached = body reached) :
    Returns twin state result ↔ Returns body state result := by
  constructor
  · intro returned
    induction returned using Returns.rec_on with
    | halt state stopped => exact returns_of_halt ((agree state .refl).symm.trans stopped)
    | next state after moved _ ih =>
        have same : body state = .next after := (agree state .refl).symm.trans moved
        exact (returns_iff_of_next same).mpr (ih fun reached path => agree reached (path.head same))
  · intro returned
    induction returned using Returns.rec_on with
    | halt state stopped => exact returns_of_halt ((agree state .refl).trans stopped)
    | next state after moved _ ih =>
        have same : twin state = .next after := (agree state .refl).trans moved
        exact (returns_iff_of_next same).mpr (ih fun reached path => agree reached (path.head moved))

theorem halts_of_next (moved : body state = .next after) :
    Halts body state ↔ Halts body after :=
  exists_congr fun _ => returns_iff_of_next moved

/-- A loop that can always go on never stops. -/
theorem not_halts_of_kept {going : σ → Prop}
    (kept : ∀ state, going state → ∃ after, Moves body state after ∧ going after)
    (initial : going state) : ¬ Halts body state := by
  intro halts
  obtain ⟨result, returned⟩ := halts
  induction returned using Returns.rec_on with
  | halt state stopped =>
      obtain ⟨after, moved, _⟩ := kept state initial
      exact absurd (stopped.symm.trans moved) (by simp)
  | next state after moved _ ih =>
      obtain ⟨other, same, more⟩ := kept state initial
      obtain rfl : after = other := Step.next.inj (moved.symm.trans same)
      exact ih more

/-! A loop that runs another one to its end in every round. -/

section Nested

variable {κ : Type w} {τ : Type x} {inner : σ → Step σ ρ} {leave : κ → ρ → Step (σ × κ) τ}
variable {key : κ} {outcome : τ}

def nested (inner : σ → Step σ ρ) (leave : κ → ρ → Step (σ × κ) τ) : σ × κ → Step (σ × κ) τ
  | (state, key) =>
      match inner state with
      | .next after => .next (after, key)
      | .halt result => leave key result

/-- What the loop stops with once it has come to this step. -/
def Leads (body : σ → Step σ ρ) : Step σ ρ → ρ → Prop
  | .next after, result => Returns body after result
  | .halt found, result => result = found

theorem returns_iff_leads : Returns body state result ↔ Leads body (body state) result := by
  cases taken : body state with
  | next after => exact returns_iff_of_next taken
  | halt found => exact returns_iff_of_halt taken

theorem nested_next (moved : inner state = .next after) :
    nested inner leave (state, key) = .next (after, key) := by
  simp only [nested, moved]

theorem nested_halt (stopped : inner state = .halt result) :
    nested inner leave (state, key) = leave key result := by
  simp only [nested, stopped]

theorem nested_cases {step : Step (σ × κ) τ} (taken : nested inner leave (state, key) = step) :
    (∃ after, inner state = .next after ∧ step = .next (after, key)) ∨
      ∃ result, inner state = .halt result ∧ leave key result = step := by
  cases here : inner state with
  | next after => exact .inl ⟨after, rfl, taken.symm.trans (nested_next here)⟩
  | halt result => exact .inr ⟨result, rfl, (nested_halt here).symm.trans taken⟩

theorem returns_nested (finished : Returns inner state result) :
    Returns (nested inner leave) (state, key) outcome ↔
      Leads (nested inner leave) (leave key result) outcome := by
  induction finished using Returns.rec_on with
  | halt state stopped => rw [returns_iff_leads, nested_halt stopped]
  | next state after moved _ ih => rw [returns_iff_of_next (nested_next moved), ih]

/-- A state that the outer loop comes to is one of the run of the inner loop
that is under way, or comes after its end. -/
theorem reaches_nested {finish : σ × κ}
    (reached : Relation.ReflTransGen (Moves (nested inner leave)) (state, key) finish) :
    (finish.2 = key ∧ Relation.ReflTransGen (Moves inner) state finish.1) ∨
      ∃ found next, Returns inner state found ∧ leave key found = .next next := by
  generalize begun : (state, key) = start at reached
  induction reached using Relation.ReflTransGen.head_induction_on generalizing state with
  | refl =>
      subst begun
      exact .inl ⟨rfl, .refl⟩
  | @head start after moved _ ih =>
      subst begun
      rcases nested_cases moved with ⟨reached, taken, same⟩ | ⟨found, taken, left⟩
      · cases same
        rcases ih rfl with ⟨same, path⟩ | ⟨found, next, returned, left⟩
        · exact .inl ⟨same, path.head taken⟩
        · exact .inr ⟨found, next, (returns_iff_of_next taken).mpr returned, left⟩
      · exact .inr ⟨found, after, returns_of_halt taken, left⟩

theorem nested_reaches (reached : Relation.ReflTransGen (Moves inner) state after) :
    Relation.ReflTransGen (Moves (nested inner leave)) (state, key) (after, key) := by
  induction reached with
  | refl => exact .refl
  | tail _ moved ih => exact ih.tail (nested_next moved)

end Nested

theorem halts_of_reaches (reached : Relation.ReflTransGen (Moves body) state after) :
    Halts body state ↔ Halts body after :=
  exists_congr fun _ => returns_of_reaches reached

/-! Two loops that go along with each other, some rounds at a time. -/

section Twins

variable {κ : Type w} {τ : Type x} {twin : κ → Step κ τ} {related : σ → κ → Prop}

/-- They have come to an end, or both go on and are related again. -/
def GoAlong (body : σ → Step σ ρ) (twin : κ → Step κ τ) (related : σ → κ → Prop) (left : σ) (right : κ) : Prop :=
  (Halts body left ∧ Halts twin right) ∨
    ∃ after other, Relation.TransGen (Moves body) left after ∧ Relation.TransGen (Moves twin) right other ∧
      related after other

theorem GoAlong.swap {left : σ} {right : κ} (along : GoAlong body twin related left right) :
    GoAlong twin body (fun right left => related left right) right left := by
  rcases along with ⟨ended, twinEnded⟩ | ⟨after, other, moved, twinMoved, kept⟩
  · exact .inl ⟨twinEnded, ended⟩
  · exact .inr ⟨other, after, twinMoved, moved, kept⟩

theorem acc_of_halts (halts : Halts body state) : Acc (fun after before => Moves body before after) state := by
  obtain ⟨result, returned⟩ := halts
  induction returned using Returns.rec_on with
  | halt state stopped => exact ⟨_, fun after moved => absurd (stopped.symm.trans moved) (by simp)⟩
  | next state after moved _ ih =>
      refine ⟨_, fun other same => ?_⟩
      obtain rfl : after = other := Step.next.inj (moved.symm.trans same)
      exact ih

theorem Halts.along {left : σ} {right : κ} (halts : Halts body left)
    (along : ∀ {left right}, related left right → GoAlong body twin related left right)
    (initial : related left right) : Halts twin right := by
  have accessible := (acc_of_halts halts).transGen
  induction accessible generalizing right with
  | intro left _ ih =>
      rcases along initial with ⟨_, ended⟩ | ⟨after, other, moved, twinMoved, kept⟩
      · exact ended
      · have later := (halts_of_reaches moved.to_reflTransGen).mp halts
        exact (halts_of_reaches twinMoved.to_reflTransGen).mpr
          (ih after (Relation.transGen_swap.mpr moved) later kept)

theorem halts_iff_along {left : σ} {right : κ}
    (along : ∀ {left right}, related left right → GoAlong body twin related left right)
    (initial : related left right) : Halts body left ↔ Halts twin right := by
  constructor
  · exact fun halts => halts.along along initial
  · exact fun halts => @Halts.along _ _ twin _ _ body (fun right left => related left right) _ _ halts
      (fun kept => (along kept).swap) initial

end Twins

end Loop

end Tebako.Data
