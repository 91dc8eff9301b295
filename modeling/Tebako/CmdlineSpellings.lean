import Tebako.CmdlineReading

namespace Tebako

/-! The two spellings of an option, `--tebako-X=v` and `--tebako-X v`.

They differ where the value is empty: one of the two checks for that. -/

inductive CmdlineOption where
  | run | mount | extract
deriving Repr, DecidableEq

def CmdlineOption.key : CmdlineOption → Str
  | run => runKey
  | mount => mountKey
  | extract => extractKey

open CmdlineArgs

/-- A list is read as items to its end. -/
def ReadAs (named : Bool) (list : List Str) (items : List CmdlineItem) : Prop :=
  CmdlineItem.Reads TakenAsOption named items ∧ list = items.flatMap CmdlineItem.arguments

/-- The next argument is a mount option without a rule. -/
def RuleMissing (list : List Str) : Prop :=
  ∃ rest, list = mountKeyEx :: rest ∨ list = mountKey :: rest ∧ Missing rest

/-- An option with an empty value and the next fault after it get the same
message; `named` says whether an image has been named before. -/
def SameFault (named : Bool) (after : List Str) : CmdlineOption → Prop
  | .run => named = false ∧ ∃ later tail, CmdlineItem.Reads TakenAsOption true later ∧
      after = later.flatMap CmdlineItem.arguments ++ runKeyEx :: tail
  | .mount => ∃ later tail, CmdlineItem.Reads TakenAsOption named later ∧
      after = later.flatMap CmdlineItem.arguments ++ tail ∧ RuleMissing tail
  | .extract => False

section Faults

variable {args : CmdlineArgs} {list rest after : List Str} {named : Bool} {value arg : Str}
variable {result : Except InvalidArgument Str} {items : List CmdlineItem} {failure : InvalidArgument}

theorem errorMsg_ne_errorMsgRun : errorMsg ≠ errorMsgRun := by decide +kernel

theorem errorMsgRunNodup_ne_errorMsgRun : errorMsgRunNodup ≠ errorMsgRun := by decide +kernel

theorem errorMsgRunNodup_ne_errorMsg : errorMsgRunNodup ≠ errorMsg := by decide +kernel

theorem Stops.of_errorMsgRun (stops : Stops true list result) (failed : result = .error errorMsgRun) :
    ∃ tail, list = runKeyEx :: tail := by
  cases stops with
  | runEmpty => exact ⟨_, rfl⟩
  | runAgain => exact absurd (Except.error.inj failed) errorMsgRunNodup_ne_errorMsgRun
  | runTwice => exact absurd (Except.error.inj failed) errorMsgRunNodup_ne_errorMsgRun
  | runMissing first => cases first
  | mountEmpty => exact absurd (Except.error.inj failed) errorMsg_ne_errorMsgRun
  | mountMissing => exact absurd (Except.error.inj failed) errorMsg_ne_errorMsgRun
  | extractJoined => cases failed
  | extractMissing => cases failed
  | extractNext => cases failed

theorem Stops.of_errorMsg (stops : Stops named list result) (failed : result = .error errorMsg) :
    RuleMissing list := by
  cases stops with
  | runEmpty => exact absurd (Except.error.inj failed).symm errorMsg_ne_errorMsgRun
  | runAgain => exact absurd (Except.error.inj failed) errorMsgRunNodup_ne_errorMsg
  | runTwice => exact absurd (Except.error.inj failed) errorMsgRunNodup_ne_errorMsg
  | runMissing => exact absurd (Except.error.inj failed).symm errorMsg_ne_errorMsgRun
  | mountEmpty => exact ⟨_, .inl rfl⟩
  | mountMissing missing => exact ⟨_, .inr ⟨rfl, missing⟩⟩
  | extractJoined => cases failed
  | extractMissing => cases failed
  | extractNext => cases failed

/-- An exception comes from where the reading stops. -/
theorem parseFrom_error_iff : parseFrom list args = .error failure ↔ ∃ items rest,
    CmdlineItem.Reads TakenAsOption args.run items ∧
    list = items.flatMap CmdlineItem.arguments ++ rest ∧
    Stops (args.run || items.any CmdlineItem.isRun) rest (.error failure) := by
  constructor
  · intro failed
    obtain ⟨items, rest, reads, whole, ended⟩ := reads_to_stop args.run list
    refine ⟨items, rest, reads, whole, ?_⟩
    rw [whole, parseFrom_items reads] at failed
    rcases ended with rfl | stops
    · cases failed
    · obtain ⟨result, stops⟩ := stops
      rw [← takeAll_run] at stops
      rw [parseFrom_stops stops] at failed
      cases result with
      | ok folder => cases failed
      | error other =>
          cases failed
          rwa [← takeAll_run]
  · intro stopped
    obtain ⟨items, rest, reads, rfl, stops⟩ := stopped
    rw [← takeAll_run] at stops
    rw [parseFrom_items reads, parseFrom_stops stops]
    rfl

/-- Where a list is not read to its end, what comes after it does not matter: if
the last argument asks for a value, a flag is none. -/
theorem Stops.append {flag : Str} (stops : Stops named list result) (isFlag : IsFlag flag)
    (rest : List Str) : Stops named (list ++ flag :: rest) result := by
  have missing {rest' : List Str} (missing : Missing rest') : Missing (rest' ++ flag :: rest) := by
    intro next head
    cases rest' with
    | nil =>
        cases head
        exact isFlag
    | cons first later => exact missing next head
  cases stops with
  | runEmpty => exact .runEmpty
  | runAgain again some => exact .runAgain again some
  | runTwice again => exact .runTwice again
  | runMissing first none => exact .runMissing first (missing none)
  | mountEmpty => exact .mountEmpty
  | mountMissing none => exact .mountMissing (missing none)
  | extractJoined => exact .extractJoined
  | extractMissing key alone none => exact .extractMissing key alone (missing none)
  | extractNext key alone value => exact .extractNext key alone value

theorem parseFrom_before {before : List Str} (unread : ¬ ∃ items, ReadAs args.run before items) :
    ∃ outcome, ∀ flag rest, IsFlag flag → parseFrom (before ++ flag :: rest) args = outcome := by
  obtain ⟨items, left, reads, whole, ended⟩ := reads_to_stop args.run before
  rcases ended with rfl | stops
  · rw [List.append_nil] at whole
    exact absurd ⟨items, reads, whole⟩ unread
  · obtain ⟨result, stops⟩ := stops
    rw [← takeAll_run] at stops
    refine ⟨result.map (args.takeAll items).extractTo, fun flag rest isFlag => ?_⟩
    rw [whole, List.append_assoc, parseFrom_items reads, parseFrom_stops (stops.append isFlag rest)]

theorem stops_of_ruleMissing (missing : RuleMissing list) : Stops named list (.error errorMsg) := by
  obtain ⟨rest, rfl | ⟨rfl, missing⟩⟩ := missing
  · exact .mountEmpty
  · exact .mountMissing missing

end Faults

section Spellings

variable {args : CmdlineArgs} {before after : List Str} {value : Str} {option : CmdlineOption}

theorem isFlag_key (option : CmdlineOption) (rest : Str) : IsFlag (option.key ++ rest) := by
  cases option <;> rfl

theorem not_extractKeyEx_prefix : ¬ extractKeyEx <+: extractKey := by decide

theorem parseFrom_spelled_of_value (plain : ¬ IsFlag value) (some : value ≠ []) :
    parseFrom (spelled option.key true value ++ after) args =
      parseFrom (spelled option.key false value ++ after) args := by
  cases option with
  | run =>
      cases named : args.run with
      | true =>
          have joined : Stops args.run (spelled runKey true value ++ after) _ := .runAgain named some
          have separate : Stops args.run (spelled runKey false value ++ after) _ := .runTwice named
          exact (parseFrom_stops joined).trans (parseFrom_stops separate).symm
      | false =>
          have joined := @parseFrom_item args (.run true value) after some fun _ => named
          have separate := @parseFrom_item args (.run false value) after plain fun _ => named
          exact joined.trans separate.symm
  | mount =>
      have joined := @parseFrom_item args (.mount true value) after some nofun
      have separate := @parseFrom_item args (.mount false value) after plain nofun
      exact joined.trans separate.symm
  | extract =>
      have joined : Stops args.run (spelled extractKey true value ++ after) _ := .extractJoined
      have separate : Stops args.run (spelled extractKey false value ++ after) _ :=
        .extractNext List.prefix_rfl not_extractKeyEx_prefix plain
      refine (parseFrom_stops joined).trans ?_
      rw [if_neg some]
      exact (parseFrom_stops separate).symm

theorem parseFrom_run_empty_iff :
    parseFrom (spelled runKey true [] ++ after) args = parseFrom (spelled runKey false [] ++ after) args ↔
      SameFault args.run after .run := by
  have joined : parseFrom (spelled runKey true [] ++ after) args = .error errorMsgRun :=
    parseFrom_stops .runEmpty
  rw [joined]
  cases named : args.run with
  | true =>
      have separate : parseFrom (spelled runKey false [] ++ after) args = .error errorMsgRunNodup :=
        parseFrom_stops (.runTwice named)
      rw [separate]
      constructor
      · intro same
        exact absurd (Except.error.inj same).symm errorMsgRunNodup_ne_errorMsgRun
      · intro fault
        cases fault.1
  | false =>
      have separate := @parseFrom_item args (.run false []) after nofun fun _ => named
      have run : (args.take (.run false [])).run = true := rfl
      change _ = parseFrom ((CmdlineItem.run false []).arguments ++ after) args ↔ _
      rw [separate, eq_comm, parseFrom_error_iff, run]
      constructor
      · intro failed
        obtain ⟨later, rest, reads, whole, stops⟩ := failed
        obtain ⟨tail, rfl⟩ := stops.of_errorMsgRun rfl
        exact ⟨rfl, later, tail, reads, whole⟩
      · intro fault
        obtain ⟨_, later, tail, reads, whole⟩ := fault
        exact ⟨later, _, reads, whole, .runEmpty⟩

theorem parseFrom_mount_empty_iff :
    parseFrom (spelled mountKey true [] ++ after) args =
      parseFrom (spelled mountKey false [] ++ after) args ↔ SameFault args.run after .mount := by
  have joined : parseFrom (spelled mountKey true [] ++ after) args = .error errorMsg :=
    parseFrom_stops .mountEmpty
  have separate := @parseFrom_item args (.mount false []) after nofun nofun
  have run : (args.take (.mount false [])).run = args.run := rfl
  rw [joined]
  change _ = parseFrom ((CmdlineItem.mount false []).arguments ++ after) args ↔ _
  rw [separate, eq_comm, parseFrom_error_iff, run]
  constructor
  · intro failed
    obtain ⟨later, rest, reads, whole, stops⟩ := failed
    exact ⟨later, rest, reads, whole, stops.of_errorMsg rfl⟩
  · intro fault
    obtain ⟨later, tail, reads, whole, missing⟩ := fault
    exact ⟨later, tail, reads, whole, stops_of_ruleMissing missing⟩

theorem parseFrom_extract_empty_ne :
    parseFrom (spelled extractKey true [] ++ after) args ≠
      parseFrom (spelled extractKey false [] ++ after) args := by
  have joined : parseFrom (spelled extractKey true [] ++ after) args = .ok (args.extractTo extractDest) :=
    parseFrom_stops .extractJoined
  have separate : parseFrom (spelled extractKey false [] ++ after) args = .ok (args.extractTo []) :=
    parseFrom_stops (.extractNext List.prefix_rfl not_extractKeyEx_prefix (by decide))
  rw [joined, separate]
  intro same
  have folders : extractDest = [] := congrArg CmdlineArgs.extractFolder (Except.ok.inj same)
  exact absurd folders (by decide)

theorem parseFrom_spelled_empty_iff :
    parseFrom (spelled option.key true [] ++ after) args =
      parseFrom (spelled option.key false [] ++ after) args ↔ SameFault args.run after option := by
  cases option with
  | run => exact parseFrom_run_empty_iff
  | mount => exact parseFrom_mount_empty_iff
  | extract => exact ⟨fun same => absurd same parseFrom_extract_empty_ne, False.elim⟩

/-- The spelling of an option makes no difference exactly where its value is not
empty, or where the option is not read as one, or where both spellings end in the
same exception. -/
theorem spellings_agree_iff (option : CmdlineOption) (before after : List Str) (value : Str)
    (plain : ¬ IsFlag value) :
    parseArguments (before ++ spelled option.key true value ++ after) =
        parseArguments (before ++ spelled option.key false value ++ after) ↔
      value ≠ [] ∨ ∀ items, ReadAs false before items →
        SameFault (items.any CmdlineItem.isRun) after option := by
  have read {items : List CmdlineItem} (reads : ReadAs false before items) (rest : List Str) :
      parseArguments (before ++ rest) = parseFrom rest (takeAll {} items) := by
    obtain ⟨reads, rfl⟩ := reads
    exact parseFrom_items reads
  have named {items : List CmdlineItem} : (takeAll {} items).run = items.any CmdlineItem.isRun := by
    rw [takeAll_run]
    rfl
  rw [List.append_assoc, List.append_assoc]
  by_cases readable : ∃ items, ReadAs false before items
  · obtain ⟨items, reads⟩ := readable
    by_cases empty : value = []
    · subst empty
      simp only [ne_eq, not_true_eq_false, false_or]
      constructor
      · intro same items reads
        rw [read reads, read reads, parseFrom_spelled_empty_iff, named] at same
        exact same
      · intro fault
        rw [read reads, read reads, parseFrom_spelled_empty_iff, named]
        exact fault items reads
    · simp only [empty, ne_eq, not_false_eq_true, true_or, iff_true]
      rw [read reads, read reads]
      exact parseFrom_spelled_of_value plain empty
  · obtain ⟨outcome, unread⟩ := @parseFrom_before {} before readable
    refine ⟨fun _ => .inr fun items reads => absurd ⟨items, reads⟩ readable, fun _ => ?_⟩
    have key : IsFlag option.key := by simpa using isFlag_key option []
    exact (unread _ after (isFlag_key option _)).trans (unread _ (value :: after) key).symm

theorem spellings_agree_for_image :
    parseArguments ([['p']] ++ spelled CmdlineOption.run.key true ['d'] ++ []) =
        parseArguments ([['p']] ++ spelled CmdlineOption.run.key false ['d'] ++ []) ↔
      ['d'] ≠ ([] : Str) ∨ ∀ items, ReadAs false [['p']] items →
        SameFault (items.any CmdlineItem.isRun) [] .run :=
  spellings_agree_iff .run [['p']] [] ['d'] (by decide)

/-- An empty rule is rejected in one spelling only. -/
theorem spellings_differ : ¬ ∀ (option : CmdlineOption) (before after : List Str) (value : Str),
    ¬ IsFlag value →
    parseArguments (before ++ spelled option.key true value ++ after) =
      parseArguments (before ++ spelled option.key false value ++ after) := by
  intro always
  have same := always .mount [['p']] [] [] (by decide)
  exact absurd same (by decide +kernel)

end Spellings

end Tebako
