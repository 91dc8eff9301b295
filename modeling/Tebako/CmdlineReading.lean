import Tebako.Cmdline

namespace Tebako

/-! How a command line is read: as options with their values and arguments that
are passed on, up to an option to extract the image. -/

/-- An option with its value, in one argument or in two. -/
def spelled (key : Str) (joined : Bool) (value : Str) : List Str :=
  if joined then [key ++ '=' :: value] else [key, value]

/-- What follows a key in a value's place is none. -/
def Missing (rest : List Str) : Prop := ∀ next, rest.head? = some next → IsFlag next

def IsValue (joined : Bool) (value : Str) : Prop := if joined then value ≠ [] else ¬ IsFlag value

/-- What one round of the loop takes: an option, or an argument passed on. -/
inductive CmdlineItem where
  | run (joined : Bool) (image : Str)
  | mount (joined : Bool) (rule : Str)
  | other (arg : Str)

namespace CmdlineItem

def arguments : CmdlineItem → List Str
  | run joined image => spelled runKey joined image
  | mount joined rule => spelled mountKey joined rule
  | other arg => [arg]

def image : CmdlineItem → Option Str
  | run _ image => some image
  | _ => none

def rule : CmdlineItem → Option Str
  | mount _ rule => some rule
  | _ => none

def passed : CmdlineItem → Option Str
  | other arg => some arg
  | _ => none

def isRun (item : CmdlineItem) : Bool := item.image.isSome

variable (isOption : Str → Prop)

def Readable : CmdlineItem → Prop
  | run joined image => IsValue joined image
  | mount joined rule => IsValue joined rule
  | other arg => ¬ isOption arg

/-- Items that can follow each other, where `named` says whether an image has been
named before them. -/
def Reads : Bool → List CmdlineItem → Prop
  | _, [] => True
  | named, item :: rest =>
      item.Readable isOption ∧ (item.isRun = true → named = false) ∧ Reads (named || item.isRun) rest

end CmdlineItem

/-- What `parse_arguments` takes for an option. -/
def TakenAsOption (arg : Str) : Prop :=
  runKeyEx <+: arg ∨ mountKeyEx <+: arg ∨ arg = runKey ∨ arg = mountKey ∨ extractKey <+: arg

/-- The arguments at which the loop ends, and how: with an exception, or with the
folder to extract to. -/
inductive Stops (run : Bool) : List Str → Except InvalidArgument Str → Prop where
  | runEmpty {rest} : Stops run (runKeyEx :: rest) (.error errorMsgRun)
  | runAgain {value rest} (again : run = true) (some : value ≠ []) :
      Stops run ((runKey ++ '=' :: value) :: rest) (.error errorMsgRunNodup)
  | runTwice {rest} (again : run = true) : Stops run (runKey :: rest) (.error errorMsgRunNodup)
  | runMissing {rest} (first : run = false) (missing : Missing rest) :
      Stops run (runKey :: rest) (.error errorMsgRun)
  | mountEmpty {rest} : Stops run (mountKeyEx :: rest) (.error errorMsg)
  | mountMissing {rest} (missing : Missing rest) : Stops run (mountKey :: rest) (.error errorMsg)
  | extractJoined {value rest} : Stops run ((extractKey ++ '=' :: value) :: rest)
      (.ok (if value = [] then extractDest else value))
  | extractMissing {arg rest} (key : extractKey <+: arg) (alone : ¬ extractKeyEx <+: arg)
      (missing : Missing rest) : Stops run (arg :: rest) (.ok extractDest)
  | extractNext {arg next rest} (key : extractKey <+: arg) (alone : ¬ extractKeyEx <+: arg)
      (value : ¬ IsFlag next) : Stops run (arg :: next :: rest) (.ok next)

/-! ## The loop takes one item after another -/

namespace CmdlineArgs

def take (args : CmdlineArgs) : CmdlineItem → CmdlineArgs
  | .run _ image => { args with run := true, appImage := image }
  | .mount _ rule => { args with mountpoints := args.mountpoints ++ [rule] }
  | .other arg => { args with otherArgs := args.otherArgs ++ [arg] }

def takeAll (args : CmdlineArgs) (items : List CmdlineItem) : CmdlineArgs := items.foldl take args

/-- The image that has been named, or none. -/
def images (args : CmdlineArgs) : List Str := if args.run then [args.appImage] else []

def extractTo (args : CmdlineArgs) (folder : Str) : CmdlineArgs :=
  { args with extract := true, extractFolder := folder }

end CmdlineArgs

section Rounds

open CmdlineArgs

variable {args : CmdlineArgs} {item : CmdlineItem} {items : List CmdlineItem} {rest list : List Str}
variable {arg value : Str} {named : Bool} {result : Except InvalidArgument Str}

theorem joined_of_prefix {key : Str} (joined : key ++ ['='] <+: arg) :
    ∃ value, arg = key ++ '=' :: value := by
  obtain ⟨value, rfl⟩ := joined
  exact ⟨value, by simp⟩

theorem not_missing (some : ¬ Missing rest) : ∃ next later, rest = next :: later ∧ ¬ IsFlag next := by
  cases rest with
  | nil => exact absurd (fun _ none => nomatch none) some
  | cons next later =>
      refine ⟨next, later, rfl, fun flag => some fun other same => ?_⟩
      cases same
      exact flag

/-! What a round of the loop does at each kind of argument. -/

theorem parseFrom_runEx (value : Str) :
    parseFrom ((runKey ++ '=' :: value) :: rest) args =
      if value = [] then .error errorMsgRun
      else if args.run then .error errorMsgRunNodup
      else parseFrom rest (args.take (.run true value)) := by
  rw [parseFrom.eq_def]
  simp [runKeyEx, runKey, take]

theorem parseFrom_mountEx (value : Str) :
    parseFrom ((mountKey ++ '=' :: value) :: rest) args =
      if value = [] then .error errorMsg else parseFrom rest (args.take (.mount true value)) := by
  rw [parseFrom.eq_def]
  simp [runKeyEx, mountKeyEx, runKey, mountKey, take]

theorem parseFrom_extractEx (value : Str) :
    parseFrom ((extractKey ++ '=' :: value) :: rest) args =
      .ok (args.extractTo (if value = [] then extractDest else value)) := by
  rw [parseFrom.eq_def]
  simp [runKeyEx, mountKeyEx, extractKeyEx, runKey, mountKey, extractKey, extractTo]

theorem parseFrom_run : parseFrom (runKey :: rest) args =
    if args.run then .error errorMsgRunNodup
    else
      match rest with
      | [] => .error errorMsgRun
      | next :: rest =>
          if IsFlag next then .error errorMsgRun else parseFrom rest (args.take (.run false next)) := by
  rw [parseFrom.eq_def]
  cases rest <;> simp [runKeyEx, mountKeyEx, extractKeyEx, runKey, mountKey, extractKey, take]

theorem parseFrom_mount : parseFrom (mountKey :: rest) args =
    match rest with
    | [] => .error errorMsg
    | next :: rest =>
        if IsFlag next then .error errorMsg else parseFrom rest (args.take (.mount false next)) := by
  rw [parseFrom.eq_def]
  cases rest <;> simp [runKeyEx, mountKeyEx, extractKeyEx, runKey, mountKey, extractKey, take]

theorem parseFrom_extract (key : extractKey <+: arg) (alone : ¬ extractKeyEx <+: arg) :
    parseFrom (arg :: rest) args = .ok (args.extractTo
      (match rest with
      | [] => extractDest
      | next :: _ => if IsFlag next then extractDest else next)) := by
  obtain ⟨value, rfl⟩ := key
  have notRunEx : ¬ runKeyEx <+: extractKey ++ value := by simp [runKeyEx, runKey, extractKey]
  have notMountEx : ¬ mountKeyEx <+: extractKey ++ value := by simp [mountKeyEx, mountKey, extractKey]
  have notRun : extractKey ++ value ≠ runKey := by simp [runKey, extractKey]
  have notMount : extractKey ++ value ≠ mountKey := by simp [mountKey, extractKey]
  rw [parseFrom.eq_def]
  simp only [notRunEx, notMountEx, alone, notRun, notMount, List.prefix_append, ↓reduceIte]
  cases rest <;> rfl

theorem parseFrom_other (other : ¬ TakenAsOption arg) :
    parseFrom (arg :: rest) args = parseFrom rest (args.take (.other arg)) := by
  simp only [TakenAsOption, not_or] at other
  obtain ⟨notRunEx, notMountEx, notRun, notMount, notExtract⟩ := other
  have notExtractEx : ¬ extractKeyEx <+: arg := fun longer =>
    notExtract ((List.prefix_append _ _).trans longer)
  rw [parseFrom.eq_def]
  simp only [notRunEx, notMountEx, notExtractEx, notRun, notMount, notExtract, ↓reduceIte, take]

theorem parseFrom_item (readable : item.Readable TakenAsOption)
    (first : item.isRun = true → args.run = false) :
    parseFrom (item.arguments ++ rest) args = parseFrom rest (args.take item) := by
  cases item with
  | run joined image =>
      have fresh : args.run = false := first rfl
      cases joined with
      | true =>
          have some : image ≠ [] := readable
          exact (parseFrom_runEx image).trans (by simp [some, fresh])
      | false =>
          have plain : ¬ IsFlag image := readable
          exact parseFrom_run.trans (by simp [fresh, plain])
  | mount joined rule =>
      cases joined with
      | true =>
          have some : rule ≠ [] := readable
          exact (parseFrom_mountEx rule).trans (by simp [some, take])
      | false =>
          have plain : ¬ IsFlag rule := readable
          exact parseFrom_mount.trans (by simp [plain, take])
  | other arg => exact parseFrom_other readable

theorem take_run : (args.take item).run = (args.run || item.isRun) := by
  cases item <;> simp [take, CmdlineItem.isRun, CmdlineItem.image]

theorem takeAll_cons : args.takeAll (item :: items) = (args.take item).takeAll items := rfl

theorem takeAll_run : (args.takeAll items).run = (args.run || items.any CmdlineItem.isRun) := by
  induction items generalizing args with
  | nil => simp [takeAll]
  | cons item items ih =>
      rw [takeAll_cons, ih, take_run, List.any_cons, Bool.or_assoc]

theorem parseFrom_items (reads : CmdlineItem.Reads TakenAsOption args.run items) :
    parseFrom (items.flatMap CmdlineItem.arguments ++ rest) args = parseFrom rest (args.takeAll items) := by
  induction items generalizing args with
  | nil => rfl
  | cons item items ih =>
      obtain ⟨readable, first, others⟩ := reads
      rw [List.flatMap_cons, List.append_assoc, parseFrom_item readable first, ih (by rwa [take_run])]
      rfl

theorem parseFrom_stops (stops : Stops args.run list result) :
    parseFrom list args = result.map args.extractTo := by
  cases stops with
  | runEmpty => exact (parseFrom_runEx []).trans (if_pos rfl)
  | runAgain again some => rw [parseFrom_runEx, if_neg some, if_pos again, Except.map]
  | runTwice again => rw [parseFrom_run, if_pos again, Except.map]
  | @runMissing rest first missing =>
      rw [parseFrom_run, if_neg (by simp [first])]
      cases rest with
      | nil => rfl
      | cons next later => exact if_pos (missing next rfl)
  | mountEmpty => exact (parseFrom_mountEx []).trans (if_pos rfl)
  | @mountMissing rest missing =>
      rw [parseFrom_mount]
      cases rest with
      | nil => rfl
      | cons next later => exact if_pos (missing next rfl)
  | extractJoined => exact parseFrom_extractEx _
  | @extractMissing arg rest key alone missing =>
      rw [parseFrom_extract key alone]
      cases rest with
      | nil => rfl
      | cons next later =>
          have flag := missing next rfl
          simp only [flag, ↓reduceIte, Except.map]
  | extractNext key alone value =>
      rw [parseFrom_extract key alone]
      simp only [value, ↓reduceIte, Except.map]

/-- Where there are arguments left, there is an item to take or the loop ends. -/
theorem item_or_stops (named : Bool) (arg : Str) (rest : List Str) :
    (∃ (item : CmdlineItem) (later : List Str), item.Readable TakenAsOption ∧ (item.isRun = true → named = false) ∧
      arg :: rest = item.arguments ++ later) ∨ ∃ result, Stops named (arg :: rest) result := by
  by_cases other : TakenAsOption arg
  · rcases other with runEx | mountEx | rfl | rfl | extract
    · obtain ⟨value, rfl⟩ := joined_of_prefix runEx
      by_cases empty : value = []
      · subst empty
        exact .inr ⟨_, .runEmpty⟩
      · cases named with
        | true => exact .inr ⟨_, .runAgain rfl empty⟩
        | false => exact .inl ⟨.run true value, rest, empty, fun _ => rfl, rfl⟩
    · obtain ⟨value, rfl⟩ := joined_of_prefix mountEx
      by_cases empty : value = []
      · subst empty
        exact .inr ⟨_, .mountEmpty⟩
      · exact .inl ⟨.mount true value, rest, empty, nofun, rfl⟩
    · cases named with
      | true => exact .inr ⟨_, .runTwice rfl⟩
      | false =>
          by_cases missing : Missing rest
          · exact .inr ⟨_, .runMissing rfl missing⟩
          · obtain ⟨next, later, rfl, plain⟩ := not_missing missing
            exact .inl ⟨.run false next, later, plain, fun _ => rfl, rfl⟩
    · by_cases missing : Missing rest
      · exact .inr ⟨_, .mountMissing missing⟩
      · obtain ⟨next, later, rfl, plain⟩ := not_missing missing
        exact .inl ⟨.mount false next, later, plain, nofun, rfl⟩
    · by_cases joined : extractKeyEx <+: arg
      · obtain ⟨value, rfl⟩ := joined_of_prefix joined
        exact .inr ⟨_, .extractJoined⟩
      · by_cases missing : Missing rest
        · exact .inr ⟨_, .extractMissing extract joined missing⟩
        · obtain ⟨next, later, rfl, plain⟩ := not_missing missing
          exact .inr ⟨_, .extractNext extract joined plain⟩
  · exact .inl ⟨.other arg, rest, other, nofun, rfl⟩

/-- Every command line is read to its end, or to where the loop ends. -/
theorem reads_to_stop (named : Bool) (list : List Str) :
    ∃ items rest, CmdlineItem.Reads TakenAsOption named items ∧
      list = items.flatMap CmdlineItem.arguments ++ rest ∧
      (rest = [] ∨ ∃ result, Stops (named || items.any CmdlineItem.isRun) rest result) := by
  induction size : list.length using Nat.strong_induction_on generalizing named list with
  | h length ih =>
      cases list with
      | nil => exact ⟨[], [], trivial, rfl, .inl rfl⟩
      | cons arg rest =>
          rcases item_or_stops named arg rest with item | stops
          · obtain ⟨item, later, readable, first, split⟩ := item
            have shorter : later.length < length := by
              have taken : 0 < item.arguments.length := by
                cases item with
                | run joined image => cases joined <;> simp [CmdlineItem.arguments, spelled]
                | mount joined rule => cases joined <;> simp [CmdlineItem.arguments, spelled]
                | other arg => simp [CmdlineItem.arguments]
              rw [← size, split, List.length_append]
              omega
            obtain ⟨items, left, reads, whole, ended⟩ :=
              ih later.length shorter (named || item.isRun) later rfl
            refine ⟨item :: items, left, ⟨readable, first, reads⟩, ?_, ?_⟩
            · rw [split, whole, List.flatMap_cons, List.append_assoc]
            · rwa [List.any_cons, ← Bool.or_assoc]
          · exact ⟨[], arg :: rest, trivial, rfl, .inr (by simpa using stops)⟩

end Rounds

/-! ## Every argument is accounted for -/

/-- The options as they are meant: a key, or a key with `=` and a value. -/
def IsTebakoOption (arg : Str) : Prop :=
  arg = runKey ∨ arg = mountKey ∨ arg = extractKey ∨
    runKeyEx <+: arg ∨ mountKeyEx <+: arg ∨ extractKeyEx <+: arg

def IsExtractOption (arg : Str) : Prop := arg = extractKey ∨ extractKeyEx <+: arg

/-- A command line is what was read, item by item, and what begins with an
option to extract the image. -/
structure Partitions (list : List Str) (args : CmdlineArgs) (items : List CmdlineItem)
    (tail : List Str) : Prop where
  whole : list = items.flatMap CmdlineItem.arguments ++ tail
  readable : ∀ item ∈ items, item.Readable IsTebakoOption
  mountpoints : args.mountpoints = items.filterMap CmdlineItem.rule
  otherArgs : args.otherArgs = items.filterMap CmdlineItem.passed
  image : items.filterMap CmdlineItem.image = args.images
  ended : if args.extract then ∃ arg rest, tail = arg :: rest ∧ IsExtractOption arg else tail = []

/-- The first argument that begins as an option to extract does, values of other
options apart. -/
def firstExtract : List Str → Option Str
  | [] => none
  | arg :: rest =>
      if extractKey <+: arg then some arg
      else if arg = runKey ∨ arg = mountKey then
        match rest with
        | [] => none
        | _ :: rest => firstExtract rest
      else firstExtract rest

section Partition

open CmdlineArgs

variable {args : CmdlineArgs} {items : List CmdlineItem} {rest tail list : List Str} {arg : Str}

theorem takenAsOption_of_isTebakoOption (option : IsTebakoOption arg) : TakenAsOption arg := by
  rcases option with run | mount | extract | runEx | mountEx | extractEx
  · exact .inr (.inr (.inl run))
  · exact .inr (.inr (.inr (.inl mount)))
  · exact .inr (.inr (.inr (.inr (by rw [extract]))))
  · exact .inl runEx
  · exact .inr (.inl mountEx)
  · exact .inr (.inr (.inr (.inr ((List.prefix_append _ _).trans extractEx))))

theorem readable_of_reads {isOption : Str → Prop} {named : Bool}
    (reads : CmdlineItem.Reads isOption named items) : ∀ item ∈ items, item.Readable isOption := by
  induction items generalizing named with
  | nil => exact fun _ none => nomatch none
  | cons item items ih =>
      obtain ⟨readable, _, others⟩ := reads
      intro other member
      rcases List.mem_cons.mp member with rfl | later
      · exact readable
      · exact ih others other later

theorem takeAll_mountpoints :
    (args.takeAll items).mountpoints = args.mountpoints ++ items.filterMap CmdlineItem.rule := by
  induction items generalizing args with
  | nil => simp [takeAll]
  | cons item items ih =>
      rw [takeAll_cons, ih]
      cases item <;> simp [take, CmdlineItem.rule, List.filterMap_cons]

theorem takeAll_otherArgs :
    (args.takeAll items).otherArgs = args.otherArgs ++ items.filterMap CmdlineItem.passed := by
  induction items generalizing args with
  | nil => simp [takeAll]
  | cons item items ih =>
      rw [takeAll_cons, ih]
      cases item <;> simp [take, CmdlineItem.passed, List.filterMap_cons]

theorem takeAll_extract : (args.takeAll items).extract = args.extract := by
  induction items generalizing args with
  | nil => rfl
  | cons item items ih =>
      rw [takeAll_cons, ih]
      cases item <;> rfl

/-- An image that has been named keeps a second one from being read. -/
theorem takeAll_image {isOption : Str → Prop} (reads : CmdlineItem.Reads isOption args.run items) :
    (args.takeAll items).images = args.images ++ items.filterMap CmdlineItem.image := by
  induction items generalizing args with
  | nil => simp [takeAll]
  | cons item items ih =>
      obtain ⟨_, first, others⟩ := reads
      rw [takeAll_cons, ih (by rwa [take_run])]
      cases item with
      | run joined image =>
          have fresh : args.run = false := first rfl
          simp [take, fresh, images, CmdlineItem.image]
      | mount joined rule => rfl
      | other arg => rfl

/-- Arguments passed on may hide an option to extract from the reading. -/
theorem firstExtract_items (readable : ∀ item ∈ items, item.Readable IsTebakoOption) :
    (∃ bad ∈ items.filterMap CmdlineItem.passed, extractKey <+: bad) ∨
      firstExtract (items.flatMap CmdlineItem.arguments ++ tail) = firstExtract tail := by
  induction items with
  | nil => exact .inr rfl
  | cons item items ih =>
      rcases ih fun other member => readable other (by simp [member]) with hidden | same
      · obtain ⟨bad, member, key⟩ := hidden
        refine .inl ⟨bad, ?_, key⟩
        rw [List.filterMap_cons]
        split
        · exact member
        · exact List.mem_cons_of_mem _ member
      · rw [List.flatMap_cons, List.append_assoc, ← same]
        cases item with
        | run joined image =>
            refine .inr ?_
            cases joined <;>
              rw [firstExtract.eq_def] <;>
              simp [CmdlineItem.arguments, spelled, runKey, mountKey, extractKey]
        | mount joined rule =>
            refine .inr ?_
            cases joined <;>
              rw [firstExtract.eq_def] <;>
              simp [CmdlineItem.arguments, spelled, runKey, mountKey, extractKey]
        | other arg =>
            by_cases key : extractKey <+: arg
            · exact .inl ⟨arg, by simp [CmdlineItem.passed], key⟩
            · have plain : ¬ IsTebakoOption arg := readable (.other arg) (by simp)
              have notRun : arg ≠ runKey := fun run => plain (.inl run)
              have notMount : arg ≠ mountKey := fun mount => plain (.inr (.inl mount))
              refine .inr ?_
              rw [firstExtract.eq_def]
              simp only [CmdlineItem.arguments, List.cons_append, List.nil_append, key, notRun,
                notMount, or_self, ↓reduceIte]

theorem firstExtract_of_extract (extract : IsExtractOption arg) :
    firstExtract (arg :: rest) = some arg := by
  have key : extractKey <+: arg := by
    rcases extract with rfl | joined
    · exact List.prefix_rfl
    · exact (List.prefix_append _ _).trans joined
  rw [firstExtract.eq_def]
  simp only [key, ↓reduceIte]

theorem Stops.extracts {named : Bool} {folder : Str} (stops : Stops named list (.ok folder)) :
    ∃ arg rest, list = arg :: rest ∧ extractKey <+: arg := by
  cases stops with
  | extractJoined => exact ⟨_, _, rfl, List.prefix_append _ _⟩
  | extractMissing key _ _ => exact ⟨_, _, rfl, key⟩
  | extractNext key _ _ => exact ⟨_, _, rfl, key⟩

/-- What `parse_arguments` does where it does not throw. -/
theorem parseArguments_ok (parsed : parseArguments list = .ok args) :
    ∃ items tail, CmdlineItem.Reads TakenAsOption false items ∧
      list = items.flatMap CmdlineItem.arguments ++ tail ∧
      args.mountpoints = items.filterMap CmdlineItem.rule ∧
      args.otherArgs = items.filterMap CmdlineItem.passed ∧
      items.filterMap CmdlineItem.image = args.images ∧
      if args.extract then ∃ arg rest, tail = arg :: rest ∧ extractKey <+: arg else tail = [] := by
  obtain ⟨items, tail, reads, whole, ended⟩ := reads_to_stop false list
  have image := @takeAll_image {} items _ reads
  have extract : (takeAll {} items).extract = false := takeAll_extract
  rw [parseArguments, whole, @parseFrom_items {} items tail reads] at parsed
  refine ⟨items, tail, reads, whole, ?_⟩
  rcases ended with rfl | stops
  · cases parsed
    exact ⟨takeAll_mountpoints, takeAll_otherArgs, image.symm, by rw [extract]; rfl⟩
  · obtain ⟨result, stops⟩ := stops
    have run : (takeAll {} items).run = (false || items.any CmdlineItem.isRun) := takeAll_run
    rw [← run] at stops
    rw [parseFrom_stops stops] at parsed
    cases result with
    | error failure => cases parsed
    | ok folder =>
        cases parsed
        exact ⟨takeAll_mountpoints, takeAll_otherArgs, image.symm, stops.extracts⟩

/-- The loop passes on no argument that begins as an option to extract does. -/
theorem not_extract_of_passed (parsed : parseArguments list = .ok args) (passed : arg ∈ args.otherArgs) :
    ¬ extractKey <+: arg := by
  obtain ⟨items, _, reads, _, _, otherArgs, _⟩ := parseArguments_ok parsed
  intro key
  rw [otherArgs, List.mem_filterMap] at passed
  obtain ⟨item, member, same⟩ := passed
  cases item with
  | run joined image => cases same
  | mount joined rule => cases same
  | other arg =>
      cases same
      exact readable_of_reads reads _ member (.inr (.inr (.inr (.inr key))))

theorem firstExtract_eq (parsed : parseArguments list = .ok args)
    (readable : ∀ item ∈ items, item.Readable IsTebakoOption)
    (otherArgs : args.otherArgs = items.filterMap CmdlineItem.passed)
    (whole : list = items.flatMap CmdlineItem.arguments ++ tail) :
    firstExtract list = firstExtract tail := by
  rcases @firstExtract_items items tail readable with hidden | same
  · obtain ⟨bad, member, key⟩ := hidden
    exact absurd key (not_extract_of_passed parsed (otherArgs ▸ member))
  · rw [whole, same]

theorem isExtractOption_of_partitions (parsed : parseArguments list = .ok args)
    (partitions : Partitions list args items tail) (found : firstExtract list = some arg) :
    IsExtractOption arg := by
  rw [firstExtract_eq parsed partitions.readable partitions.otherArgs partitions.whole] at found
  have ended := partitions.ended
  split at ended
  · obtain ⟨option, rest, rfl, extract⟩ := ended
    rw [firstExtract_of_extract extract] at found
    cases found
    exact extract
  · subst ended
    cases found

/-- The arguments of a command line are accounted for, each once, exactly when
the first one that begins as an option to extract does is that option. -/
theorem cmdline_partition_iff (list : List Str) (args : CmdlineArgs)
    (parsed : parseArguments list = .ok args) :
    (∃ items tail, Partitions list args items tail) ↔
      ∀ arg, firstExtract list = some arg → IsExtractOption arg := by
  constructor
  · intro partitions arg found
    obtain ⟨items, tail, partitions⟩ := partitions
    exact isExtractOption_of_partitions parsed partitions found
  · intro extracts
    obtain ⟨items, tail, reads, whole, mountpoints, otherArgs, image, ended⟩ :=
      parseArguments_ok parsed
    have genuine : ∀ item ∈ items, item.Readable IsTebakoOption := by
      intro item member
      have readable := readable_of_reads reads item member
      cases item with
      | run joined image => exact readable
      | mount joined rule => exact readable
      | other arg => exact fun option => readable (takenAsOption_of_isTebakoOption option)
    refine ⟨items, tail, whole, genuine, mountpoints, otherArgs, image, ?_⟩
    split
    · rename_i extract
      rw [if_pos extract] at ended
      obtain ⟨arg, rest, rfl, key⟩ := ended
      refine ⟨arg, rest, rfl, extracts arg ?_⟩
      rw [firstExtract_eq parsed genuine otherArgs whole, firstExtract.eq_def]
      simp only [key, ↓reduceIte]
    · rename_i extract
      rwa [if_neg extract] at ended

/-- `p --tebako-run d v --tebako-mount=a:b --tebako-extract x` -/
def mountedCmdline : List Str :=
  [['p'], runKey, ['d'], ['v'], mountKeyEx ++ ['a', ':', 'b'], extractKey, ['x']]

def mountedArgs : CmdlineArgs :=
  { mountpoints := [['a', ':', 'b']], otherArgs := [['p'], ['v']], extractFolder := ['x'], appImage := ['d'],
    extract := true, run := true }

theorem mountedCmdline_partition :
    (∃ items tail, Partitions mountedCmdline mountedArgs items tail) ↔
      ∀ arg, firstExtract mountedCmdline = some arg → IsExtractOption arg :=
  cmdline_partition_iff mountedCmdline mountedArgs (by decide +kernel)

/-- `p --tebako-extractor x`: an option of the application. -/
def extractorCmdline : List Str := [['p'], extractKey ++ ['o', 'r'], ['x']]

/-- It is taken for `--tebako-extract`, and the image is extracted to `x`. -/
theorem extractor_swallowed : ¬ ∀ (list : List Str) (args : CmdlineArgs),
    parseArguments list = .ok args → ∃ items tail, Partitions list args items tail := by
  intro always
  have parsed : parseArguments extractorCmdline =
      .ok { otherArgs := [['p']], extract := true, extractFolder := ['x'] } := by decide +kernel
  obtain ⟨items, tail, partitions⟩ := always _ _ parsed
  have option := isExtractOption_of_partitions parsed partitions
    (show firstExtract extractorCmdline = some (extractKey ++ ['o', 'r']) by decide +kernel)
  rw [IsExtractOption] at option
  exact absurd option (by decide +kernel)

end Partition

end Tebako
