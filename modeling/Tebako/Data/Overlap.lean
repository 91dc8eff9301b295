import Mathlib.Data.List.Basic
import Mathlib.Data.Set.Basic
import Tebako.Data.Loop
import Tebako.Data.Machine

namespace Tebako.Data

/-! Calls that take several rounds, and of which many are under way at once.

If no two calls that are under way together touch what the other one changes,
each is answered as if it had been made in one step, at the moment it began. -/

namespace Machine

variable {σ : Type u} {ι : Type v} {ο : Type w} {step : Machine σ ι ο}

theorem after_append (ops : List ι) (op : ι) (state : σ) :
    after step (ops ++ [op]) state = (step op (after step ops state)).2 := by
  induction ops generalizing state with
  | nil => rfl
  | cons first rest ih => exact ih _

theorem answers_append (ops : List ι) (op : ι) (state : σ) :
    answers step (ops ++ [op]) state = answers step ops state ++ [(step op (after step ops state)).1] := by
  induction ops generalizing state with
  | nil => rfl
  | cons first rest ih => simp only [List.cons_append, answers, after, ih]

theorem answers_length (ops : List ι) (state : σ) : (answers step ops state).length = ops.length := by
  induction ops generalizing state with
  | nil => rfl
  | cons first rest ih => simp only [answers, List.length_cons, ih]

/-- What has been answered stays so. -/
theorem answers_append_kept {ops : List ι} {op : ι} {state : σ} {place : Nat} {answer : ο}
    (answered : (answers step ops state)[place]? = some answer) :
    (answers step (ops ++ [op]) state)[place]? = some answer := by
  have bound := (List.getElem?_eq_some_iff.mp answered).1
  rw [answers_append, List.getElem?_append_left bound, answered]

theorem answers_append_last (ops : List ι) (op : ι) (state : σ) :
    (answers step (ops ++ [op]) state)[ops.length]? = some (step op (after step ops state)).1 := by
  rw [answers_append, ← @answers_length _ _ _ step ops state, List.getElem?_concat_length]

end Machine

/-- What a call does in one go. The calls here come to an end. -/
structure Rounds (σ : Type u) (π : Type v) (ο : Type w) where
  round : π → σ → Step π ο × σ
  left : π → Nat
  fewer : ∀ {call next : π} {state : σ}, (round call state).1 = .next next → left next < left call

namespace Rounds

variable {σ : Type u} {π : Type v} {ο : Type w} {rounds : Rounds σ π ο}

/-- All the rounds of a call, with nothing in between. -/
def whole (rounds : Rounds σ π ο) (call : π) (state : σ) : ο × σ :=
  match _going : (rounds.round call state).1 with
  | .halt answer => (answer, (rounds.round call state).2)
  | .next next => rounds.whole next (rounds.round call state).2
termination_by rounds.left call
decreasing_by exact rounds.fewer ‹_›

theorem whole_halt {call : π} {state : σ} {answer : ο} (ends : (rounds.round call state).1 = .halt answer) :
    rounds.whole call state = (answer, (rounds.round call state).2) := by
  rw [whole]
  split
  · rename_i other going
    cases ends.symm.trans going
    rfl
  · rename_i next going
    cases ends.symm.trans going

theorem whole_next {call next : π} {state : σ} (goes : (rounds.round call state).1 = .next next) :
    rounds.whole call state = rounds.whole next (rounds.round call state).2 := by
  rw [whole]
  split
  · rename_i answer going
    cases goes.symm.trans going
  · rename_i other going
    cases goes.symm.trans going
    rfl

theorem whole_of_halt {call : π} {state after : σ} {answer : ο}
    (ends : rounds.round call state = (.halt answer, after)) : rounds.whole call state = (answer, after) := by
  rw [whole_halt (congrArg Prod.fst ends), ends]

theorem whole_of_next {call next : π} {state after : σ} (goes : rounds.round call state = (.next next, after)) :
    rounds.whole call state = rounds.whole next after := by
  rw [whole_next (congrArg Prod.fst goes), goes]

/-- The rounds of calls that are apart can be exchanged. -/
structure Swaps (rounds : Rounds σ π ο) (apart : π → π → Prop) : Prop where
  symm : ∀ {call other : π}, apart call other → apart other call
  goesOn : ∀ {call other next : π} {state : σ}, apart call other → (rounds.round call state).1 = .next next →
    apart next other
  outcome : ∀ {call other : π} {state : σ}, apart call other →
    (rounds.round call (rounds.round other state).2).1 = (rounds.round call state).1
  swap : ∀ {call other : π} {state : σ}, apart call other →
    (rounds.round call (rounds.round other state).2).2 = (rounds.round other (rounds.round call state).2).2

/-- The calls are finished, one after the other. -/
def settle (rounds : Rounds σ π ο) : List π → σ → σ
  | [], state => state
  | call :: rest, state => rounds.settle rest (rounds.whole call state).2

theorem settle_append (before later : List π) (state : σ) :
    rounds.settle (before ++ later) state = rounds.settle later (rounds.settle before state) := by
  induction before generalizing state with
  | nil => rfl
  | cons call rest ih => exact ih _

section Swapping

variable {apart : π → π → Prop} (swaps : rounds.Swaps apart) {call other : π} {calls : List π}
include swaps

theorem Swaps.whole_round (separate : apart call other) (state : σ) :
    rounds.whole call (rounds.round other state).2 =
        ((rounds.whole call state).1, (rounds.round other (rounds.whole call state).2).2) ∧
      (rounds.round other (rounds.whole call state).2).1 = (rounds.round other state).1 := by
  induction call, state using whole.induct rounds with
  | case1 call state answer going =>
      have outcome := @swaps.outcome _ _ state separate
      have back := @swaps.outcome _ _ state (swaps.symm separate)
      rw [whole_halt (outcome.trans going), whole_halt going, swaps.swap separate]
      exact ⟨rfl, back⟩
  | case2 call state next going ih =>
      have outcome := @swaps.outcome _ _ state separate
      have back := @swaps.outcome _ _ state (swaps.symm separate)
      obtain ⟨same, alike⟩ := ih (swaps.goesOn separate going)
      rw [whole_next (outcome.trans going), whole_next going, swaps.swap separate]
      exact ⟨same, alike.trans back⟩

theorem Swaps.settle_round (separate : ∀ call ∈ calls, apart call other) (state : σ) :
    rounds.settle calls (rounds.round other state).2 = (rounds.round other (rounds.settle calls state)).2 ∧
      (rounds.round other (rounds.settle calls state)).1 = (rounds.round other state).1 := by
  induction calls generalizing state with
  | nil => exact ⟨rfl, rfl⟩
  | cons call rest ih =>
      obtain ⟨whole, alike⟩ := swaps.whole_round (separate call (by simp)) state
      obtain ⟨settled, later⟩ := ih (fun call member => separate call (by simp [member])) (rounds.whole call state).2
      simp only [settle, whole]
      exact ⟨settled, later.trans alike⟩

/-- A call is answered alike before and after the others are finished. -/
theorem Swaps.whole_settle (separate : ∀ other ∈ calls, apart other call) (state : σ) :
    (rounds.whole call (rounds.settle calls state)).1 = (rounds.whole call state).1 := by
  induction call, state using whole.induct rounds with
  | case1 call state answer going =>
      obtain ⟨_, alike⟩ := swaps.settle_round separate state
      rw [whole_halt (alike.trans going), whole_halt going]
  | case2 call state next going ih =>
      obtain ⟨settled, alike⟩ := swaps.settle_round separate state
      rw [whole_next (alike.trans going), whole_next going, ← settled]
      exact ih fun other member => swaps.symm (swaps.goesOn (swaps.symm (separate other member)) going)

end Swapping

/-! ## Calls that are apart by what they touch -/

/-- The parts of a state, with what each call looks at or changes of them. -/
structure Footprints (rounds : Rounds σ π ο) {ρ : Type x} {ν : ρ → Type y} (part : ∀ place, σ → ν place)
    (uses writes : π → Set ρ) : Prop where
  ext : ∀ {state other : σ}, (∀ place, part place state = part place other) → state = other
  subset : ∀ call, writes call ⊆ uses call
  goesOn : ∀ {call next : π} {state : σ}, (rounds.round call state).1 = .next next →
    uses next ⊆ uses call ∧ writes next ⊆ writes call
  keeps : ∀ {call : π} {state : σ} {place : ρ}, place ∉ writes call →
    part place (rounds.round call state).2 = part place state
  depends : ∀ {call : π} {state other : σ}, (∀ place ∈ uses call, part place state = part place other) →
    (rounds.round call state).1 = (rounds.round call other).1 ∧
      ∀ place ∈ writes call, part place (rounds.round call state).2 = part place (rounds.round call other).2

/-- Neither changes what the other one looks at. -/
def Apart {ρ : Type x} (uses writes : π → Set ρ) (call other : π) : Prop :=
  (∀ place ∈ writes call, place ∉ uses other) ∧ ∀ place ∈ writes other, place ∉ uses call

theorem Footprints.swaps {ρ : Type x} {ν : ρ → Type y} {part : ∀ place, σ → ν place} {uses writes : π → Set ρ}
    (footprints : rounds.Footprints part uses writes) : rounds.Swaps (Apart uses writes) where
  symm separate := ⟨separate.2, separate.1⟩
  goesOn {call other next state} separate goes := by
    obtain ⟨fewerUses, fewerWrites⟩ := footprints.goesOn goes
    exact ⟨fun place written => separate.1 place (fewerWrites written),
      fun place written used => separate.2 place written (fewerUses used)⟩
  outcome {call other state} separate :=
    (footprints.depends fun place used => footprints.keeps fun written => separate.2 place written used).1
  swap {call other state} separate := by
    have apartFrom : ∀ {place}, place ∈ writes call → place ∉ writes other := fun written also =>
      separate.1 _ written (footprints.subset other also)
    have own : ∀ place ∈ writes call, ∀ state,
        part place (rounds.round call (rounds.round other state).2).2 = part place (rounds.round call state).2 :=
      fun place written state => (footprints.depends fun place used =>
        footprints.keeps fun also => separate.2 place also used).2 place written
    have others : ∀ place ∈ writes other, ∀ state,
        part place (rounds.round other (rounds.round call state).2).2 = part place (rounds.round other state).2 :=
      fun place written state => (footprints.depends fun place used =>
        footprints.keeps fun also => separate.1 place also used).2 place written
    apply footprints.ext
    intro place
    by_cases first : place ∈ writes call
    · rw [own place first, footprints.keeps (apartFrom first)]
    · by_cases second : place ∈ writes other
      · rw [footprints.keeps first, others place second]
      · rw [footprints.keeps first, footprints.keeps second, footprints.keeps second, footprints.keeps first]

/-! ## Calls that are under way -/

section Overlapping

variable {ι : Type x} (rounds : Rounds σ π ο) (begins : ι → π)

/-- `calls` are under way, each with its place among the calls that have begun. -/
structure Overlapping (σ : Type u) (π : Type v) (ο : Type w) (ι : Type x) where
  state : σ
  calls : List (Nat × π)
  begun : List ι
  returned : List (Nat × ο)

/-- A call begins with its first round, or one of those under way goes on. -/
inductive Turn (ι : Type x) where
  | begin (op : ι)
  | goOn (index : Nat)

def Turn.op : Turn ι → Option ι
  | .begin op => some op
  | .goOn _ => none

def Overlapping.fresh (state : σ) : Overlapping σ π ο ι := ⟨state, [], [], []⟩

def overlap : Machine (Overlapping σ π ο ι) (Turn ι) (Option ο)
  | .begin op, s =>
      let after := (rounds.round (begins op) s.state).2
      match (rounds.round (begins op) s.state).1 with
      | .halt answer => (some answer, ⟨after, s.calls, s.begun ++ [op], (s.begun.length, answer) :: s.returned⟩)
      | .next next => (none, ⟨after, s.calls ++ [(s.begun.length, next)], s.begun ++ [op], s.returned⟩)
  | .goOn index, s =>
      match s.calls[index]? with
      | none => (none, s)
      | some (place, call) =>
          let after := (rounds.round call s.state).2
          match (rounds.round call s.state).1 with
          | .halt answer => (some answer, ⟨after, s.calls.eraseIdx index, s.begun, (place, answer) :: s.returned⟩)
          | .next next => (none, ⟨after, s.calls.set index (place, next), s.begun, s.returned⟩)

/-- A call begins only if it is apart from all that are under way. -/
def Overlapping.Allowed (apart : π → π → Prop) (s : Overlapping σ π ο ι) : Turn ι → Prop
  | .begin op => ∀ under ∈ s.calls, apart under.2 (begins op)
  | .goOn _ => True

/-- Each call in one step. -/
def atOnce : Machine σ ι ο := fun op state => rounds.whole (begins op) state

variable {rounds begins} {apart : π → π → Prop} {start : σ} {s : Overlapping σ π ο ι}

/-- All that is under way was decided when it began. -/
structure Overlapping.Decided (rounds : Rounds σ π ο) (begins : ι → π) (apart : π → π → Prop) (start : σ)
    (s : Overlapping σ π ο ι) : Prop where
  state : rounds.settle (s.calls.map (·.2)) s.state = Machine.after (atOnce rounds begins) s.begun start
  under : ∀ place call, (place, call) ∈ s.calls →
    (Machine.answers (atOnce rounds begins) s.begun start)[place]? = some (rounds.whole call s.state).1
  returned : ∀ place answer, (place, answer) ∈ s.returned →
    (Machine.answers (atOnce rounds begins) s.begun start)[place]? = some answer
  apart : s.calls.Pairwise fun under other => apart under.2 other.2

theorem Overlapping.Decided.fresh : (fresh start : Overlapping σ π ο ι).Decided rounds begins apart start where
  state := rfl
  under := by simp [Overlapping.fresh]
  returned := by simp [Overlapping.fresh]
  apart := .nil

theorem split_at {α : Type u} {list : List α} {index : Nat} {item : α} (found : list[index]? = some item) :
    ∃ before later, list = before ++ item :: later ∧ (∀ other, list.set index other = before ++ other :: later) ∧
      list.eraseIdx index = before ++ later := by
  obtain ⟨bound, rfl⟩ := List.getElem?_eq_some_iff.mp found
  refine ⟨list.take index, list.drop (index + 1), ?_, fun other => ?_, List.eraseIdx_eq_take_drop_succ list index⟩
  · rw [List.getElem_cons_drop, List.take_append_drop]
  · rw [List.set_eq_take_append_cons_drop, if_pos bound]

theorem overlap_begun (turns : List (Turn ι)) :
    (Machine.after (overlap rounds begins) turns s).begun = s.begun ++ turns.filterMap Turn.op := by
  induction turns generalizing s with
  | nil => exact (List.append_nil _).symm
  | cons turn rest ih =>
      rw [Machine.after, ih]
      cases turn with
      | begin op =>
          rw [List.filterMap_cons_some (f := Turn.op) (b := op) rfl]
          simp only [overlap]
          split <;> simp
      | goOn index =>
          rw [List.filterMap_cons_none rfl]
          simp only [overlap]
          split
          · rfl
          · split <;> rfl

section Steps

variable (swaps : rounds.Swaps apart)
include swaps

theorem Overlapping.Decided.begin (decided : s.Decided rounds begins apart start) {op : ι}
    (separate : ∀ under ∈ s.calls, apart under.2 (begins op)) :
    (overlap rounds begins (.begin op) s).2.Decided rounds begins apart start := by
  have apartFrom : ∀ call ∈ s.calls.map (·.2), apart call (begins op) := by
    intro call member
    obtain ⟨under, there, rfl⟩ := List.mem_map.mp member
    exact separate under there
  obtain ⟨settled, alike⟩ := swaps.settle_round apartFrom s.state
  have answered := swaps.whole_settle apartFrom s.state
  rw [decided.state] at settled alike answered
  have last := @Machine.answers_append_last _ _ _ (atOnce rounds begins) s.begun op start
  have others : ∀ place call, (place, call) ∈ s.calls →
      (Machine.answers (atOnce rounds begins) (s.begun ++ [op]) start)[place]? =
        some (rounds.whole call (rounds.round (begins op) s.state).2).1 := by
    intro place call member
    rw [(swaps.whole_round (separate _ member) s.state).1]
    exact Machine.answers_append_kept (decided.under place call member)
  have before : ∀ place answer, (place, answer) ∈ s.returned →
      (Machine.answers (atOnce rounds begins) (s.begun ++ [op]) start)[place]? = some answer :=
    fun place answer member => Machine.answers_append_kept (decided.returned place answer member)
  simp only [atOnce] at last
  rw [answered] at last
  cases going : (rounds.round (begins op) s.state).1 with
  | halt answer =>
      rw [whole_halt going] at last
      simp only [overlap, going]
      exact {
        state := by
          simp only [Machine.after_append, settled, atOnce, whole_halt (alike.trans going)]
        under := others
        returned := by
          intro place given member
          rcases List.mem_cons.mp member with same | member
          · cases same
            exact last
          · exact before place given member
        apart := decided.apart }
  | next next =>
      rw [whole_next going] at last
      simp only [overlap, going]
      exact {
        state := by
          simp only [Machine.after_append, List.map_append, settle_append, settled, atOnce,
            whole_next (alike.trans going), List.map_cons, List.map_nil, settle]
        under := by
          intro place call member
          rcases List.mem_append.mp member with member | member
          · exact others place call member
          · cases List.mem_singleton.mp member
            exact last
        returned := before
        apart := by
          apply List.pairwise_append.mpr
          refine ⟨decided.apart, List.pairwise_singleton _ _, ?_⟩
          intro under member other only
          cases List.mem_singleton.mp only
          exact swaps.symm (swaps.goesOn (swaps.symm (separate under member)) going) }

theorem Overlapping.Decided.goOn (decided : s.Decided rounds begins apart start) (index : Nat) :
    (overlap rounds begins (.goOn index) s).2.Decided rounds begins apart start := by
  cases found : s.calls[index]? with
  | none =>
      simp only [overlap, found]
      exact decided
  | some under =>
      obtain ⟨place, call⟩ := under
      obtain ⟨before, later, split, set, erase⟩ := split_at found
      obtain ⟨beforeApart, laterApart, between⟩ := List.pairwise_append.mp (split ▸ decided.apart)
      obtain ⟨fromLater, laterApart⟩ := List.pairwise_cons.mp laterApart
      have fromBefore : ∀ under ∈ before, apart under.2 call := fun under member =>
        between under member (place, call) (by simp)
      have beforeLater : ∀ under ∈ before, ∀ other ∈ later, apart under.2 other.2 := fun under member other also =>
        between under member other (by simp [also])
      have apartFrom : ∀ other ∈ before.map (·.2), apart other call := by
        intro other member
        obtain ⟨under, there, rfl⟩ := List.mem_map.mp member
        exact fromBefore under there
      obtain ⟨settled, alike⟩ := swaps.settle_round apartFrom s.state
      have state := decided.state
      rw [split, List.map_append, List.map_cons, settle_append, settle] at state
      have own := decided.under place call (by rw [split]; simp)
      have others : ∀ number other, (number, other) ∈ before ++ later →
          (Machine.answers (atOnce rounds begins) s.begun start)[number]? =
            some (rounds.whole other (rounds.round call s.state).2).1 := by
        intro number other member
        have separate : apart other call := by
          rcases List.mem_append.mp member with member | member
          · exact fromBefore _ member
          · exact swaps.symm (fromLater _ member)
        rw [(swaps.whole_round separate s.state).1]
        apply decided.under number other
        rw [split]
        rcases List.mem_append.mp member with member | member
        · exact List.mem_append_left _ member
        · exact List.mem_append_right _ (List.mem_cons_of_mem _ member)
      cases going : (rounds.round call s.state).1 with
      | halt answer =>
          rw [whole_halt going] at own
          rw [whole_halt (alike.trans going)] at state
          simp only [overlap, found, going, erase]
          exact {
            state := by simp only [List.map_append, settle_append, settled, state]
            under := others
            returned := by
              intro number given member
              rcases List.mem_cons.mp member with same | member
              · cases same
                exact own
              · exact decided.returned number given member
            apart := List.pairwise_append.mpr ⟨beforeApart, laterApart, beforeLater⟩ }
      | next next =>
          rw [whole_next going] at own
          rw [whole_next (alike.trans going)] at state
          simp only [overlap, found, going, set]
          exact {
            state := by simp only [List.map_append, List.map_cons, settle_append, settle, settled, state]
            under := by
              intro number other member
              rcases List.mem_append.mp member with member | member
              · exact others number other (List.mem_append_left _ member)
              · rcases List.mem_cons.mp member with same | member
                · cases same
                  exact own
                · exact others number other (List.mem_append_right _ member)
            returned := decided.returned
            apart := by
              apply List.pairwise_append.mpr
              refine ⟨beforeApart, List.pairwise_cons.mpr ⟨fun other also =>
                swaps.goesOn (fromLater other also) going, laterApart⟩, ?_⟩
              intro under member other also
              rcases List.mem_cons.mp also with same | also
              · cases same
                exact swaps.symm (swaps.goesOn (swaps.symm (fromBefore under member)) going)
              · exact beforeLater under member other also }

/-- Whatever the order of the rounds, each call is answered as if it was made at
once when it began. -/
theorem Swaps.decided (reached : Machine.Reaches (overlap rounds begins) (Overlapping.Allowed begins apart)
    (.fresh start) s) : s.Decided rounds begins apart start :=
  reached.invariant .fresh fun _ turn decided allowed =>
    match turn with
    | .begin _ => decided.begin swaps allowed
    | .goOn index => decided.goOn swaps index

theorem Swaps.answered (reached : Machine.Reaches (overlap rounds begins) (Overlapping.Allowed begins apart)
    (.fresh start) s) {place : Nat} {answer : ο} (returned : (place, answer) ∈ s.returned) :
    (Machine.answers (atOnce rounds begins) s.begun start)[place]? = some answer :=
  (swaps.decided reached).returned place answer returned

theorem Swaps.quiet (reached : Machine.Reaches (overlap rounds begins) (Overlapping.Allowed begins apart)
    (.fresh start) s) (none : s.calls = []) : s.state = Machine.after (atOnce rounds begins) s.begun start := by
  have settled := (swaps.decided reached).state
  rwa [none] at settled

/-- If all the calls of a run are apart from each other, they may be made in any
order and each may stop after any round. -/
theorem Swaps.allows {turns : List (Turn ι)} (separate : (turns.filterMap Turn.op).Pairwise fun op other =>
      apart (begins op) (begins other))
    (apartFrom : ∀ under ∈ s.calls, ∀ op ∈ turns.filterMap Turn.op, apart under.2 (begins op)) :
    Machine.Allows (overlap rounds begins) (Overlapping.Allowed begins apart) turns s := by
  induction turns generalizing s with
  | nil => trivial
  | cons turn rest ih =>
      cases turn with
      | begin op =>
          rw [List.filterMap_cons_some (f := Turn.op) (b := op) rfl] at separate apartFrom
          obtain ⟨fromOp, separate⟩ := List.pairwise_cons.mp separate
          refine ⟨fun under member => apartFrom under member op (by simp), ih separate ?_⟩
          intro under member other later
          cases going : (rounds.round (begins op) s.state).1 with
          | halt answer =>
              simp only [overlap, going] at member
              exact apartFrom under member other (List.mem_cons_of_mem _ later)
          | next next =>
              simp only [overlap, going] at member
              rcases List.mem_append.mp member with member | member
              · exact apartFrom under member other (List.mem_cons_of_mem _ later)
              · cases List.mem_singleton.mp member
                exact swaps.goesOn (fromOp other later) going
      | goOn index =>
          rw [List.filterMap_cons_none rfl] at separate apartFrom
          refine ⟨trivial, ih separate ?_⟩
          intro under member other later
          cases found : s.calls[index]? with
          | none =>
              simp only [overlap, found] at member
              exact apartFrom under member other later
          | some call =>
              cases going : (rounds.round call.2 s.state).1 with
              | halt answer =>
                  simp only [overlap, found, going] at member
                  exact apartFrom under (List.mem_of_mem_eraseIdx member) other later
              | next next =>
                  simp only [overlap, found, going] at member
                  rcases List.mem_or_eq_of_mem_set member with member | same
                  · exact apartFrom under member other later
                  · rw [same]
                    exact swaps.goesOn (apartFrom call (List.mem_of_getElem? found) other later) going

end Steps

end Overlapping

end Rounds

end Tebako.Data
