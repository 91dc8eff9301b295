import Tebako.Data.LexicalPath

namespace Tebako.Data.LexicalPath

/-! Whether a path that is taken from a directory stays below it.

The directory is not known to the path: one that goes up and comes down again
is taken to have left it. -/

/-- One more name of a path that stands below the directory, with the names that
lead there in reverse, or above it. -/
def advance (within : Option (List Path)) (name : Path) : Option (List Path) :=
  if name = [] ∨ name = dot then within
  else if name = dotDot then within.bind List.tail?
  else within.map (name :: ·)

/-- Nothing is named above the directory. -/
def staysBelow : Option (List Path) → List Path → Bool
  | _, [] => true
  | within, name :: rest =>
      (within.isSome || (name = [] ∨ name = dot ∨ name = dotDot)) && staysBelow (advance within name) rest

/-- An absolute path begins above. -/
def staysInside (rest : Path) : Bool := staysBelow (if isAbsolute rest then none else some []) (names rest)

/-- The names lead to the directory, to one above it, or along the way to it. -/
def OnTheWay (dir : Path) (way : List Path) : Prop :=
  way <+: names dir ∨ collapse true way <+: collapse true (names dir)

def StrictlyBelow (dir : Path) (way : List Path) : Prop :=
  ∃ rest, rest ≠ [] ∧ collapse true way = collapse true (names dir) ++ rest

/-- What has been kept by a normalisation that began with what leads to the directory. -/
def Stands (base : List Path) (kept : List Path) : Option (List Path) → Prop
  | none => kept <:+ base.tail
  | some within => kept = within ++ base ∧ dotDot ∉ within

variable {base kept within list front : List Path} {state : Option (List Path)} {name : Path}
variable {dir rest path : Path} {way : List Path} {rooted : Bool}

example : staysInside ['.', '/', 'a', '/', '.', '.', '/', 'b'] = true := by decide
example : staysInside ['a', '/', '.', '.', '/', '.', '.', '/', 'b'] = false := by decide

theorem plain_iff : Plain name ↔ ¬ (name = [] ∨ name = dot ∨ name = dotDot) := by
  rw [not_or, not_or]
  exact ⟨fun plain => ⟨plain.nonempty, plain.notDot, plain.notDotDot⟩, fun outside => ⟨outside.1, outside.2.1, outside.2.2⟩⟩

theorem advance_plain (plain : Plain name) : advance state name = state.map (name :: ·) := by
  rw [advance, if_neg (not_or.mpr ⟨plain.nonempty, plain.notDot⟩), if_neg plain.notDotDot]

theorem advance_none : advance none name = none := by
  unfold advance
  split
  · rfl
  · split <;> rfl

theorem foldl_advance_none : list.foldl advance none = none := by
  induction list with
  | nil => rfl
  | cons name rest ih => rw [List.foldl_cons, advance_none, ih]

/-- Below the directory, it does not matter what the directory is. -/
theorem push_advance {after : List Path} (clean : dotDot ∉ within) (followed : advance (some within) name = some after) :
    push rooted (within ++ base) name = after ++ base ∧ dotDot ∉ after := by
  unfold advance at followed
  unfold push
  split at followed
  · rename_i still
    cases followed
    exact ⟨if_pos still, clean⟩
  · rename_i moves
    rw [if_neg moves]
    split at followed
    · rename_i upwards
      rw [if_pos upwards]
      cases within with
      | nil => cases followed
      | cons last before =>
          cases followed
          rw [List.mem_cons, not_or] at clean
          exact ⟨if_neg (Ne.symm clean.1), clean.2⟩
    · rename_i down
      rw [if_neg down]
      cases followed
      rw [List.mem_cons, not_or]
      exact ⟨rfl, Ne.symm down, clean⟩

theorem foldl_push_advance {after : List Path} (clean : dotDot ∉ within)
    (followed : list.foldl advance (some within) = some after) :
    list.foldl (push rooted) (within ++ base) = after ++ base := by
  induction list generalizing within with
  | nil =>
      cases followed
      rfl
  | cons name rest ih =>
      rw [List.foldl_cons] at followed ⊢
      cases moved : advance (some within) name with
      | none =>
          rw [moved, foldl_advance_none] at followed
          cases followed
      | some next =>
          rw [moved] at followed
          obtain ⟨pushed, still⟩ := @push_advance base within name rooted next clean moved
          rw [pushed]
          exact ih still followed

/-- One name of a path that stays inside. -/
theorem Stands.further (clean : dotDot ∉ base) (stands : Stands base kept state)
    (stays : state.isSome = true ∨ name = [] ∨ name = dot ∨ name = dotDot) :
    Stands base (push true kept name) (advance state name) := by
  cases state with
  | some within =>
      obtain ⟨rfl, below⟩ := stands
      cases moved : advance (some within) name with
      | some after => exact push_advance below moved
      | none =>
          unfold advance at moved
          split at moved
          · cases moved
          · split at moved
            · rename_i upwards
              cases within with
              | cons last before => cases moved
              | nil =>
                  subst upwards
                  cases base with
                  | nil => exact List.nil_suffix
                  | cons last before =>
                      rw [List.mem_cons, not_or] at clean
                      rw [List.nil_append, push_dotDot (Ne.symm clean.1)]
                      exact List.suffix_refl before
            · cases moved
  | none =>
      rw [advance_none]
      have above : kept <:+ base.tail := stands
      rcases stays.resolve_left Bool.false_ne_true with rfl | rfl | rfl
      · exact above
      · exact above
      · cases kept with
        | nil => exact List.nil_suffix
        | cons last before =>
            have known : last ∈ base := List.mem_of_mem_tail (above.subset List.mem_cons_self)
            rw [push_dotDot fun same => clean (same ▸ known)]
            exact (List.suffix_cons last before).trans above

theorem Stands.along (clean : dotDot ∉ base) (stands : Stands base kept state)
    (stays : staysBelow state list = true) (front_of : front <+: list) :
    Stands base (front.foldl (push true) kept) (front.foldl advance state) := by
  induction list generalizing front kept state with
  | nil =>
      obtain rfl := List.prefix_nil.mp front_of
      exact stands
  | cons name rest ih =>
      cases front with
      | nil => exact stands
      | cons first front =>
          obtain ⟨rfl, later⟩ := List.cons_prefix_cons.mp front_of
          rw [staysBelow, Bool.and_eq_true, Bool.or_eq_true, decide_eq_true_iff] at stays
          rw [List.foldl_cons, List.foldl_cons]
          exact ih (stands.further clean stays.1) stays.2 later

/-- A path that does not stay inside names something above the directory. -/
theorem exists_above (leaves : staysBelow state list = false) :
    ∃ front name, front ++ [name] <+: list ∧ Plain name ∧ staysBelow state front = true ∧
      front.foldl advance state = none := by
  induction list generalizing state with
  | nil => cases leaves
  | cons name rest ih =>
      rw [staysBelow, Bool.and_eq_false_iff] at leaves
      by_cases here : (state.isSome || decide (name = [] ∨ name = dot ∨ name = dotDot)) = true
      · obtain ⟨front, last, front_of, plain, stays, above⟩ := ih (leaves.resolve_left fun none => Bool.false_ne_true (none.symm.trans here))
        exact ⟨name :: front, last, List.cons_prefix_cons.mpr ⟨rfl, front_of⟩, plain,
          by rw [staysBelow, here, stays, Bool.and_self], above⟩
      · rw [Bool.or_eq_true, not_or, decide_eq_true_iff, Option.not_isSome_iff_eq_none] at here
        exact ⟨[], name, List.cons_prefix_cons.mpr ⟨rfl, List.nil_prefix⟩, plain_iff.mpr here.2, rfl, here.1⟩

/-! ## Paths taken from a directory -/

theorem dotDot_not_mem_collapse : dotDot ∉ (collapse true list).reverse :=
  fun member => (plain_of_mem_collapse (List.mem_reverse.mp member)).notDotDot rfl

theorem append_of_absolute (absolute : isAbsolute rest = true) : append dir rest = rest := if_pos absolute

theorem staysBelow_plain (plain : ∀ name ∈ list, Plain name) : staysBelow (some within) list = true := by
  induction list generalizing within with
  | nil => rfl
  | cons name rest ih =>
      rw [staysBelow, advance_plain (plain name List.mem_cons_self), Option.isSome_some, Bool.true_or, Bool.true_and]
      exact ih fun other member => plain other (List.mem_cons_of_mem name member)

/-- What stands somewhere is below the directory, or the directory itself or above it. -/
theorem Stands.collapse (stands : Stands (collapse true (names dir)).reverse kept state) :
    kept.reverse <+: LexicalPath.collapse true (names dir) ∨
      ∃ rest, rest ≠ [] ∧ kept.reverse = LexicalPath.collapse true (names dir) ++ rest := by
  cases state with
  | none =>
      left
      have above : kept <:+ (LexicalPath.collapse true (names dir)).reverse :=
        List.IsSuffix.trans stands (List.tail_suffix _)
      rw [← List.reverse_suffix, List.reverse_reverse]
      exact above
  | some within =>
      obtain ⟨rfl, _⟩ := stands
      rw [List.reverse_append, List.reverse_reverse]
      by_cases empty : within = []
      · exact .inl ⟨[], by rw [empty, List.reverse_nil, List.append_nil, List.append_nil]⟩
      · exact .inr ⟨within.reverse, by simpa using empty, rfl⟩

/-- The directories that a path leads through, if it stays inside. -/
theorem staysInside_way (stays : staysInside rest = true) (way_of : way <+: names (append dir rest)) :
    OnTheWay dir way ∨ StrictlyBelow dir way := by
  unfold staysInside at stays
  cases absolute : isAbsolute rest with
  | true =>
      rw [absolute, if_pos rfl] at stays
      rw [append_of_absolute absolute] at way_of
      have begins : Stands (collapse true (names dir)).reverse [] none := List.nil_suffix
      exact (begins.along dotDot_not_mem_collapse stays way_of).collapse.imp .inr id
  | false =>
      rw [absolute, if_neg Bool.false_ne_true] at stays
      rw [names_append absolute] at way_of
      rcases List.prefix_or_prefix_of_prefix way_of (List.prefix_append (names dir) (names rest)) with
        before | ⟨front, rfl⟩
      · exact .inl (.inl before)
      · have front_of := (List.prefix_append_right_inj (names dir)).mp way_of
        have begins : Stands (collapse true (names dir)).reverse (collapse true (names dir)).reverse (some []) :=
          ⟨rfl, List.not_mem_nil⟩
        have stands := (begins.along dotDot_not_mem_collapse stays front_of).collapse
        rw [← collapse_append] at stands
        exact stands.imp .inr id

theorem staysBelow_append (stays : staysBelow state (front ++ list) = true) :
    staysBelow (front.foldl advance state) list = true := by
  induction front generalizing state with
  | nil => exact stays
  | cons name front ih =>
      rw [List.cons_append, staysBelow, Bool.and_eq_true] at stays
      exact ih stays.2

/-- A path that ends with a name and stays inside leads to a place of its own there. -/
theorem collapse_append_inside (stays : staysInside rest = true) (plain : Plain (lastSegment rest)) :
    isAbsolute rest = false ∧ collapse false (names rest) ≠ [] ∧
      collapse true (names (append dir rest)) = collapse true (names dir) ++ collapse false (names rest) := by
  obtain ⟨front, split⟩ := names_eq_append_lastSegment plain.nonempty
  unfold staysInside at stays
  rw [split] at stays
  have last := staysBelow_append stays
  rw [staysBelow, Bool.and_eq_true, Bool.or_eq_true, decide_eq_true_iff] at last
  have below := last.1.resolve_right (plain_iff.mp plain)
  cases absolute : isAbsolute rest with
  | true =>
      rw [absolute, if_pos rfl, foldl_advance_none] at below
      cases below
  | false =>
      rw [absolute, if_neg Bool.false_ne_true] at below
      obtain ⟨within, reached⟩ := Option.isSome_iff_exists.mp below
      have whole : (names rest).foldl advance (some []) = some (lastSegment rest :: within) := by
        rw [split, List.foldl_append, reached, List.foldl_cons, List.foldl_nil, advance_plain plain, Option.map_some]
      have alone : collapse false (names rest) = (lastSegment rest :: within).reverse := by
        have kept := @foldl_push_advance [] [] (names rest) false _ List.not_mem_nil whole
        rw [collapse, ← List.nil_append [], kept, List.append_nil]
      have joined := @foldl_push_advance (collapse true (names dir)).reverse [] (names rest) true _
        List.not_mem_nil whole
      rw [List.nil_append] at joined
      refine ⟨rfl, by simp [alone], ?_⟩
      rw [names_append absolute, collapse_append, joined, alone, List.reverse_append, List.reverse_reverse]

theorem names_rooted {own : Path} (plain : Plain own) (clean : '/' ∉ own) : names ('/' :: own) = [own] := by
  rw [← List.nil_append ('/' :: own), names_append_separator, names_nil, names_single plain.nonempty clean]
  rfl

theorem collapse_single {own : Path} (plain : Plain own) : collapse true [own] = [own] := by
  rw [← List.nil_append [own], collapse_concat plain]
  rfl

theorem not_below_of_beside {own : Path} (plain : Plain own) (clean : '/' ∉ own) (other : own ≠ name)
    (beside : collapse true way = [name]) : ¬ (OnTheWay ('/' :: own) way ∨ StrictlyBelow ('/' :: own) way) := by
  unfold OnTheWay StrictlyBelow
  rw [names_rooted plain clean, collapse_single plain, beside]
  intro reached
  rcases reached with (before | above) | ⟨rest, _, same⟩
  · rcases List.prefix_cons_iff.mp before with rfl | ⟨later, rfl, empty⟩
    · cases beside
    · rw [List.prefix_nil.mp empty, collapse_single plain] at beside
      exact other (List.singleton_inj.mp beside)
  · exact other (List.cons_prefix_cons.mp above).1.symm
  · exact other (List.cons.inj same).1.symm

/-- A path that does not stay inside names something next to some directory that
it may be taken from. -/
theorem exists_beside (leaves : staysInside rest = false) : ∃ front name, Plain name ∧ ∀ own,
    Plain own → '/' ∉ own → ∃ before, before ++ front ++ [name] <+: names (append ('/' :: own) rest) ∧
      collapse true (before ++ front ++ [name]) = [name] := by
  unfold staysInside at leaves
  obtain ⟨front, name, front_of, plain, stays, above⟩ := exists_above leaves
  refine ⟨front, name, plain, fun own ownPlain clean => ?_⟩
  have separate : dotDot ∉ [own] := by
    simpa using Ne.symm ownPlain.notDotDot
  cases absolute : isAbsolute rest with
  | true =>
      rw [absolute, if_pos rfl] at stays above
      have begins : Stands [own] [] none := List.nil_suffix
      have stands := begins.along separate stays (List.prefix_refl front)
      rw [above] at stands
      refine ⟨[], by rwa [append_of_absolute absolute], ?_⟩
      rw [List.nil_append, collapse_concat plain, collapse, List.suffix_nil.mp stands]
      rfl
  | false =>
      rw [absolute, if_neg Bool.false_ne_true] at stays above
      have begins : Stands [own] [own] (some []) := ⟨rfl, List.not_mem_nil⟩
      have stands := begins.along separate stays (List.prefix_refl front)
      rw [above] at stands
      refine ⟨[own], ?_, ?_⟩
      · rw [names_append absolute, names_rooted ownPlain clean, List.append_assoc]
        exact (List.prefix_append_right_inj [own]).mpr front_of
      · rw [collapse_concat plain, collapse_append, collapse_single ownPlain, List.reverse_singleton,
          List.suffix_nil.mp stands]
        rfl

/-! ## The directories of a path -/

theorem names_parentPath_of_separator (ended : lastSegment path = []) : names (parentPath path) = names path := by
  rw [parentPath, names_rdropWhile_separator]
  rcases eq_append_separator_of_lastSegment ended with rfl | ⟨front, rfl⟩
  · rfl
  · rw [List.rdropWhile_concat, if_neg (by decide)]

/-- Along a path come the directories of its parent, and the path itself. -/
theorem prefix_names (way_of : way <+: names path) :
    way <+: names (parentPath path) ∨ way = names (parentPath path) ++ [lastSegment path] ∧ way = names path := by
  by_cases ended : lastSegment path = []
  · left
    rwa [names_parentPath_of_separator ended]
  · have split := names_parentPath ended
    rw [split] at way_of
    rcases List.prefix_concat_iff.mp way_of with same | before
    · exact .inr ⟨same, same.trans split.symm⟩
    · exact .inl before

theorem names_parentPath_begin (path : Path) : names (parentPath path) <+: names path := by
  by_cases ended : lastSegment path = []
  · exact ⟨[], by rw [names_parentPath_of_separator ended, List.append_nil]⟩
  · exact ⟨[lastSegment path], (names_parentPath ended).symm⟩

end Tebako.Data.LexicalPath
