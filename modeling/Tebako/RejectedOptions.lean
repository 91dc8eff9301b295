import Tebako.MountState

namespace Tebako

/-! Option texts that are rejected, and what they leave in the options. -/

/-- The value an option gets, unless its text is rejected. -/
def readOption (parse : CString → Option α) (default : α) : Option CString → Option α
  | none => some default
  | some text => parse text

/-- A text that is accepted stands for the value held already, and then `next`. -/
def Keeps (parse : CString → Option α) (default held : α) (text : Option CString) (next : Prop) :
    Prop :=
  ∀ value, readOption parse default text = some value → value = held ∧ next

/-- Up to the first text that is rejected, every option stands for the value
held already. One that is rejected for its range is stored before it is. -/
def KeepsUntilRejected (parsers : OptionParsers) (texts : OptionTexts) (opts : MemfsOptions) : Prop :=
  Keeps parsers.parseLevel .info opts.debuglevel texts.debuglevel <|
  Keeps parsers.parseSizeWithUnit (512 * 2 ^ 20) opts.cachesize texts.cachesize <|
  Keeps parsers.toDouble (4 / 5) opts.decompressRatio texts.decompressRatio
    (0 ≤ opts.decompressRatio ∧ opts.decompressRatio ≤ 1 →
      Keeps parsers.parseMlockMode .none opts.lockMode texts.mlock
        (Keeps parsers.toSize 2 opts.workers texts.workers True))

/-- A text is not accepted; then the call fails before it comes to the tables. -/
def Rejects (parsers : OptionParsers) (texts : OptionTexts) (opts : MemfsOptions) : Prop :=
  (setOptions (texts.setters parsers) opts).1 = false

section Setters

variable {parse : CString → Option α} {default : α} {assign : α → MemfsOptions → MemfsOptions}
variable {get : MemfsOptions → α} {text : Option CString} {setters : List OptionSetter}
variable {opts : MemfsOptions} {next : Prop}

theorem setOption_eq : setOption parse default assign text opts =
    match readOption parse default text with
    | none => (false, opts)
    | some value => (true, assign value opts) := by
  cases text <;> rfl

theorem setOption_keeps {get : MemfsOptions → β} (frame : ∀ value opts, get (assign value opts) = get opts)
    (opts : MemfsOptions) : get (setOption parse default assign text opts).2 = get opts := by
  rw [setOption_eq]
  cases readOption parse default text with
  | none => rfl
  | some value => exact frame value opts

theorem setOptions_keeps {get : MemfsOptions → β}
    (frame : ∀ setter ∈ setters, ∀ opts, get (setter opts).2 = get opts) (opts : MemfsOptions) :
    get (setOptions setters opts).2 = get opts := by
  induction setters generalizing opts with
  | nil => rfl
  | cons setter rest ih =>
      have first := frame setter (by simp) opts
      cases set : setter opts with
      | mk accepted stored =>
          rw [set] at first
          cases accepted with
          | false =>
              simp only [setOptions, set]
              exact first
          | true =>
              simp only [setOptions, set]
              rw [ih fun setter member => frame setter (by simp [member])]
              exact first

/-- One option in front of others: what it stores stays, whatever comes after. -/
theorem setOptions_cons_unchanged_iff
    (got : ∀ value opts, get (assign value opts) = value)
    (put : ∀ opts, assign (get opts) opts = opts)
    (frame : ∀ setter ∈ setters, ∀ opts, get (setter opts).2 = get opts)
    (rejected : (setOptions (setOption parse default assign text :: setters) opts).1 = false)
    (others : (setOptions setters opts).1 = false → ((setOptions setters opts).2 = opts ↔ next)) :
    (setOptions (setOption parse default assign text :: setters) opts).2 = opts ↔
      Keeps parse default (get opts) text next := by
  simp only [setOptions, setOption_eq, Keeps] at rejected ⊢
  cases read : readOption parse default text with
  | none => simp
  | some value =>
      simp only [read, Option.some.injEq, forall_eq'] at rejected ⊢
      constructor
      · intro same
        have stored := setOptions_keeps frame (assign value opts)
        rw [same, got] at stored
        rw [← stored, put] at rejected same
        exact ⟨stored.symm, (others rejected).mp same⟩
      · intro held
        obtain ⟨rfl, later⟩ := held
        rw [put] at rejected ⊢
        exact (others rejected).mpr later

end Setters

variable {parsers : OptionParsers} {texts : OptionTexts} {opts : MemfsOptions}

theorem setDecompressRatio_keeps {get : MemfsOptions → β} {text : Option CString}
    (frame : ∀ ratio opts, get { opts with decompressRatio := ratio } = get opts)
    (opts : MemfsOptions) : get (setDecompressRatio parsers text opts).2 = get opts :=
  setOption_keeps frame opts

theorem setDecompressRatio_unchanged_iff {text : Option CString} {setters : List OptionSetter}
    {next : Prop}
    (frame : ∀ setter ∈ setters, ∀ opts : MemfsOptions,
      (setter opts).2.decompressRatio = opts.decompressRatio)
    (rejected : (setOptions (setDecompressRatio parsers text :: setters) opts).1 = false)
    (others : (setOptions setters opts).1 = false → ((setOptions setters opts).2 = opts ↔ next)) :
    (setOptions (setDecompressRatio parsers text :: setters) opts).2 = opts ↔
      Keeps parsers.toDouble (4 / 5) opts.decompressRatio text
        (0 ≤ opts.decompressRatio ∧ opts.decompressRatio ≤ 1 → next) := by
  simp only [setOptions, setDecompressRatio, setOption_eq, Keeps] at rejected ⊢
  cases read : readOption parsers.toDouble (4 / 5) text with
  | none => simp
  | some value =>
      simp only [read, Option.some.injEq, forall_eq', Bool.true_and] at rejected ⊢
      by_cases range : 0 ≤ value ∧ value ≤ 1
      · simp only [range, and_self, decide_true] at rejected ⊢
        constructor
        · intro same
          have stored : (setOptions setters _).2.decompressRatio = value :=
            setOptions_keeps frame { opts with decompressRatio := value }
          rw [same] at stored
          simp only [← stored] at rejected same
          exact ⟨stored.symm, fun _ => (others rejected).mp same⟩
        · intro held
          obtain ⟨rfl, later⟩ := held
          exact (others rejected).mpr (later range)
      · simp only [range, decide_false] at rejected ⊢
        constructor
        · intro same
          have stored : value = opts.decompressRatio := congrArg MemfsOptions.decompressRatio same
          rw [stored] at range
          exact ⟨stored, fun inside => absurd inside range⟩
        · intro held
          obtain ⟨rfl, _⟩ := held
          rfl

theorem setOptions_unchanged_iff (rejected : Rejects parsers texts opts) :
    (setOptions (texts.setters parsers) opts).2 = opts ↔ KeepsUntilRejected parsers texts opts := by
  rw [Rejects, OptionTexts.setters] at rejected
  rw [OptionTexts.setters, KeepsUntilRejected]
  refine setOptions_cons_unchanged_iff (fun _ _ => rfl) (fun _ => rfl) ?_ rejected fun rejected => ?_
  · simp only [List.mem_cons, List.not_mem_nil, or_false, forall_eq_or_imp, forall_eq]
    exact ⟨setOption_keeps fun _ _ => rfl, setDecompressRatio_keeps fun _ _ => rfl,
      setOption_keeps fun _ _ => rfl, setOption_keeps fun _ _ => rfl⟩
  refine setOptions_cons_unchanged_iff (fun _ _ => rfl) (fun _ => rfl) ?_ rejected fun rejected => ?_
  · simp only [List.mem_cons, List.not_mem_nil, or_false, forall_eq_or_imp, forall_eq]
    exact ⟨setDecompressRatio_keeps fun _ _ => rfl,
      setOption_keeps fun _ _ => rfl, setOption_keeps fun _ _ => rfl⟩
  refine setDecompressRatio_unchanged_iff ?_ rejected fun rejected => ?_
  · simp only [List.mem_cons, List.not_mem_nil, or_false, forall_eq_or_imp, forall_eq]
    exact ⟨setOption_keeps fun _ _ => rfl, setOption_keeps fun _ _ => rfl⟩
  refine setOptions_cons_unchanged_iff (fun _ _ => rfl) (fun _ => rfl) ?_ rejected fun rejected => ?_
  · simp only [List.mem_cons, List.not_mem_nil, or_false, forall_eq]
    exact setOption_keeps fun _ _ => rfl
  refine setOptions_cons_unchanged_iff (fun _ _ => rfl) (fun _ => rfl) ?_ rejected fun rejected => ?_
  · simp only [List.not_mem_nil, false_implies, implies_true]
  · exact absurd rejected (by simp [setOptions])

theorem mountRootMemfs_of_rejects {loader : Loader} {image : ImageSource} {g : Globals}
    (rejected : Rejects parsers texts g.options) :
    mountRootMemfs parsers loader texts image g =
      (-1, { g with options := (setOptions (texts.setters parsers) g.options).2 }) := by
  rw [Rejects] at rejected
  cases set : setOptions (texts.setters parsers) g.options with
  | mk accepted options =>
      rw [set] at rejected
      cases rejected
      simp only [mountRootMemfs, set]

/-- A call with an option that is rejected changes nothing exactly when it does
not come to an option with another value first, in the order it sets them. -/
theorem rejected_option_iff (parsers : OptionParsers) (loader : Loader) (texts : OptionTexts)
    (image : ImageSource) (g : Globals) :
    (Rejects parsers texts g.options →
      mountRootMemfs parsers loader texts image g = (-1, g)) ↔
    (Rejects parsers texts g.options → KeepsUntilRejected parsers texts g.options) := by
  refine forall_congr' fun rejected => ?_
  rw [mountRootMemfs_of_rejects rejected, ← setOptions_unchanged_iff rejected, Prod.mk.injEq]
  obtain ⟨options, _, _, _, _, _⟩ := g
  simp only [Globals.mk.injEq, true_and, and_true]

/-- A ratio out of range is rejected, and used by the images mounted after that. -/
theorem rejected_ratio_used {loader : Loader} {image : ImageSource} {g : Globals} {level : LogLevel}
    {size : Nat} {ratio : ℚ} (debuglevel : readOption parsers.parseLevel .info texts.debuglevel = some level)
    (cachesize : readOption parsers.parseSizeWithUnit (512 * 2 ^ 20) texts.cachesize = some size)
    (read : readOption parsers.toDouble (4 / 5) texts.decompressRatio = some ratio)
    (outside : ¬ (0 ≤ ratio ∧ ratio ≤ 1)) :
    (mountRootMemfs parsers loader texts image g).1 = -1 ∧ ∀ data size,
      (makeMemfs (mountRootMemfs parsers loader texts image g).2.options data size).fsopts.decompressRatio =
        ratio := by
  have stored : setOptions (texts.setters parsers) g.options = (false,
      { g.options with debuglevel := level, cachesize := size, decompressRatio := ratio }) := by
    simp only [OptionTexts.setters, setOptions, setDebuglevel, setCachesize, setDecompressRatio,
      setOption_eq, debuglevel, cachesize, read, outside, decide_false, Bool.and_false]
  have rejected : Rejects parsers texts g.options := by rw [Rejects, stored]
  rw [mountRootMemfs_of_rejects rejected, stored]
  exact ⟨rfl, fun _ _ => rfl⟩

/-- Parsers that know one text, of a ratio. -/
def ratioParsers : OptionParsers where
  parseLevel _ := none
  parseSizeWithUnit _ := none
  toDouble text := if text.chars = ['2', '.', '0'] then some 2 else none
  parseMlockMode _ := none
  toSize _ := none

/-- The ratio 2.0 is rejected and kept. -/
theorem rejected_ratio_kept : ¬ ∀ parsers loader texts image (g : Globals),
    Rejects parsers texts g.options → mountRootMemfs parsers loader texts image g = (-1, g) := by
  intro always
  have same := always ratioParsers emptyLoader { decompressRatio := some (cStr ['2', '.', '0']) }
    noImage rootMounted (by rw [Rejects]; decide +kernel)
  obtain ⟨_, used⟩ := @rejected_ratio_used ratioParsers
    { decompressRatio := some (cStr ['2', '.', '0']) } emptyLoader noImage rootMounted .info
    (512 * 2 ^ 20) 2 rfl rfl (by decide +kernel) (by decide +kernel)
  rw [same] at used
  exact absurd (used [] 0) (by decide +kernel)

end Tebako
