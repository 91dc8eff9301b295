import Mathlib.Data.Set.Finite.Basic
import Mathlib.Order.RelClasses
import Tebako.Data.Loop

namespace Tebako.Data.Substitution

open Loop

/-! Names that are looked up one after another, where some stand for other names.

A name is looked up in a place. It leads to another place, or it is replaced by
names that are looked up from a place of their own before the names that are left.
Whether this comes to an end is told from the single replacements: none of them may
come by itself. -/

inductive Look (ν : Type u) (α : Type v) where
  | missing
  | found (next : ν)
  | replaced (base : ν) (target : List α)

variable {ν : Type u} {α : Type v} (look : ν → α → Look ν α)

/-- One name. The result is the place where the names end, if all are there. -/
def body : ν × List α → Step (ν × List α) (Option ν)
  | (place, []) => .halt (some place)
  | (place, name :: rest) =>
      match look place name with
      | .missing => .halt none
      | .found next => .next (next, rest)
      | .replaced base target => .next (base, target ++ rest)

/-- The names are looked up as far as this. -/
def Reaches : ν × List α → ν × List α → Prop := Relation.ReflTransGen (Moves (body look))

/-- The name is replaced, in this place. -/
def Replaced (entry : ν × α) (target : ν × List α) : Prop :=
  look entry.1 entry.2 = .replaced target.1 target.2

/-- On the way, the name has to be replaced in this place. -/
def ComesBy (start : ν × List α) (entry : ν × α) : Prop :=
  (∃ rest, Reaches look start (entry.1, entry.2 :: rest)) ∧ ∃ target, Replaced look entry target

/-- What one name is replaced by comes by another one. -/
def Within (entry other : ν × α) : Prop := ∃ target, Replaced look entry target ∧ ComesBy look target other

variable {look} {place next base last : ν} {name : α} {names more rest target : List α}
variable {start middle finish : ν × List α} {entry other : ν × α}

theorem moves_found (found : look place name = .found next) :
    Moves (body look) (place, name :: rest) (next, rest) := by
  simp only [Moves, body, found]

theorem moves_replaced (replaced : look place name = .replaced base target) :
    Moves (body look) (place, name :: rest) (base, target ++ rest) := by
  simp only [Moves, body, replaced]

/-- With names behind, the same names come first. -/
theorem Reaches.append (reached : Reaches look start middle) (more : List α) :
    Reaches look (start.1, start.2 ++ more) (middle.1, middle.2 ++ more) := by
  induction reached with
  | refl => exact .refl
  | @tail before after _ moved ih =>
      refine ih.tail ?_
      obtain ⟨place, list⟩ := before
      cases list with
      | nil => cases moved
      | cons name rest =>
          cases found : look place name with
          | missing => simp [Moves, body, found] at moved
          | found next =>
              obtain rfl : (next, rest) = after := Step.next.inj ((moves_found found).symm.trans moved)
              exact moves_found found
          | replaced base target =>
              obtain rfl : (base, target ++ rest) = after :=
                Step.next.inj ((moves_replaced found).symm.trans moved)
              rw [List.append_assoc]
              exact moves_replaced found

theorem ComesBy.of_reaches (reached : Reaches look start middle) (comes : ComesBy look middle entry) :
    ComesBy look start entry := by
  obtain ⟨⟨rest, further⟩, replaced⟩ := comes
  exact ⟨⟨rest, reached.trans further⟩, replaced⟩

theorem ComesBy.append (comes : ComesBy look (place, names) entry) (more : List α) :
    ComesBy look (place, names ++ more) entry := by
  obtain ⟨⟨rest, reached⟩, replaced⟩ := comes
  exact ⟨⟨rest ++ more, reached.append more⟩, replaced⟩

theorem comesBy_here (replaced : look place name = .replaced base target) :
    ComesBy look (place, name :: rest) (place, name) :=
  ⟨⟨rest, .refl⟩, (base, target), replaced⟩

/-- What comes by a name comes by all that the name is replaced by. -/
theorem ComesBy.trans (comes : ComesBy look start entry) (within : Within look entry other) :
    ComesBy look start other := by
  obtain ⟨⟨rest, reached⟩, _⟩ := comes
  obtain ⟨target, replaced, further⟩ := within
  exact .of_reaches (reached.tail (moves_replaced replaced)) (further.append rest)

theorem Within.trans {third : ν × α} (first : Within look entry other) (second : Within look other third) :
    Within look entry third := by
  obtain ⟨target, replaced, comes⟩ := first
  exact ⟨target, replaced, comes.trans second⟩

/-! ## Where it ends -/

/-- Whatever ends from where the names end, ends with the names before it. -/
def Ends (look : ν → α → Look ν α) (start : ν × List α) : Prop :=
  ∀ more, (∀ last, Reaches look start (last, []) → Halts (body look) (last, more)) →
    Halts (body look) (start.1, start.2 ++ more)

/-- The names are looked up one by one; what they are replaced by ends. -/
theorem ends_of_replaced (replacements : ∀ entry target, ComesBy look (place, names) entry →
    Replaced look entry target → Ends look target) : Ends look (place, names) := by
  induction names generalizing place with
  | nil => exact fun more behind => behind place .refl
  | cons name rest ih =>
      intro more behind
      have later : ∀ next, Reaches look (place, name :: rest) (next, rest) → Halts (body look) (next, rest ++ more) := by
        intro next reached
        refine ih (fun entry target comes => replacements entry target (.of_reaches reached comes)) more ?_
        exact fun last further => behind last (reached.trans further)
      cases found : look place name with
      | missing =>
          refine ⟨none, returns_of_halt ?_⟩
          simp only [List.cons_append, body, found]
      | found next => exact (halts_of_next (moves_found found)).mpr (later next (.single (moves_found found)))
      | replaced base target =>
          have own := replacements (place, name) (base, target) (comesBy_here found) found
          rw [List.cons_append, halts_of_next (moves_replaced found)]
          refine own (rest ++ more) fun last reached => later last ?_
          exact .trans (.single (moves_replaced found)) (reached.append rest)

theorem ends_of_acc (accessible : Acc (fun other entry => Within look entry other) entry)
    {target : ν × List α} (replaced : Replaced look entry target) : Ends look target := by
  induction accessible generalizing target with
  | intro entry _ ih =>
      exact ends_of_replaced fun other further comes => ih other ⟨target, replaced, comes⟩

/-- The lookup ends if and only if every chain of names ends each of which is come by
in what the one before it is replaced by. -/
theorem halts_iff_acc :
    Halts (body look) start ↔
      ∀ entry, ComesBy look start entry → Acc (fun other entry => Within look entry other) entry := by
  constructor
  · intro halts
    obtain ⟨result, returned⟩ := halts
    induction returned using Returns.rec_on with
    | halt start stopped =>
        intro entry comes
        obtain ⟨⟨rest, reached⟩, target, replaced⟩ := comes
        rcases reached.cases_head with rfl | ⟨next, moved, _⟩
        · exact absurd (stopped.symm.trans (moves_replaced replaced)) (by simp)
        · exact absurd (stopped.symm.trans moved) (by simp)
    | next start after moved _ ih =>
        intro entry comes
        obtain ⟨⟨rest, reached⟩, target, replaced⟩ := comes
        rcases reached.cases_head with rfl | ⟨next, first, further⟩
        · obtain rfl : _ = after := Step.next.inj ((moves_replaced replaced).symm.trans moved)
          refine ⟨_, fun other within => ih other ?_⟩
          obtain ⟨target', same, comes⟩ := within
          have equal := replaced.symm.trans same
          simp only [Look.replaced.injEq] at equal
          rw [show target = target' from Prod.ext equal.1 equal.2]
          exact comes.append rest
        · obtain rfl : after = next := Step.next.inj (moved.symm.trans first)
          exact ih entry ⟨⟨rest, further⟩, target, replaced⟩
  · intro chains
    have ends := @ends_of_replaced _ _ look start.1 start.2 fun entry target comes =>
      ends_of_acc (chains entry comes)
    have alone := ends [] fun last _ => ⟨some last, returns_of_halt rfl⟩
    rwa [List.append_nil] at alone

/-- Where only finitely many names are replaced, the lookup ends if and only if it comes
by none that is come by in what it is itself replaced by. -/
theorem halts_iff_acyclic (finite : {entry | ∃ target, Replaced look entry target}.Finite) :
    Halts (body look) start ↔ ∀ entry, ComesBy look start entry → ¬ Within look entry entry := by
  rw [halts_iff_acc]
  constructor
  · intro chains entry comes within
    have accessible := chains entry comes
    induction accessible with
    | intro entry _ ih => exact ih entry within comes within
  · intro acyclic entry comes
    let Met : Type _ := {entry // ComesBy look start entry}
    let inside : Met → Met → Prop := fun other entry => Within look entry.1 other.1
    have few : Finite Met := (finite.subset fun entry comes => comes.2).to_subtype
    have transitive : IsTrans Met inside := ⟨fun _ _ _ first second => second.trans first⟩
    have irreflexive : Std.Irrefl inside := ⟨fun entry => acyclic entry.1 entry.2⟩
    have founded : WellFounded inside := Finite.wellFounded_of_trans_of_irrefl inside
    suffices accessible : ∀ met : Met, Acc (fun other entry => Within look entry other) met.1 from
      accessible ⟨entry, comes⟩
    intro met
    induction met using founded.induction with
    | h met ih => exact ⟨_, fun other within => ih ⟨other, met.2.trans within⟩ within⟩

end Tebako.Data.Substitution
