import Tebako.CmdlineReading
import Tebako.ExtractCommand
import Tebako.PackageDescriptor

namespace Tebako

open CmdlineArgs PackageDescriptor

/-! The start of a packaged application: what is made of its command line, and of
the package that the command line names. -/

/-- `package` and `descriptor` of `cmdline_args`. -/
structure Package where
  package : List UInt8 := []
  descriptor : Option PackageDescriptor := none
deriving DecidableEq

/-- A file opened at its end, and what a read of all of it stores. -/
structure ImageFile where
  size : Nat
  stored : List UInt8
  within : stored.length ≤ size

/-- `std::vector<char>::resize` -/
def resize (bytes : List UInt8) (size : Nat) : List UInt8 :=
  bytes.take size ++ List.replicate (size - bytes.length) 0

/-- `files` is `none` for a file that cannot be opened. What has been read is kept
also where it is not all of the file, or begins with no header. -/
def processPackage (order : ByteOrder) (files : CString → Option ImageFile)
    (args : CmdlineArgs) (before : Package) : Except PackageError Unit × Package :=
  match files (cStr args.appImage) with
  | none => (.error (.invalidArgument ("Path " ++ String.ofList args.appImage ++ " does not exist")), before)
  | some file =>
      let package := file.stored ++ (resize before.package file.size).drop file.stored.length
      if file.stored.length < file.size then
        (.error (.invalidArgument ("Failed to load filesystem image from " ++ String.ofList args.appImage)),
          { before with package := package })
      else
        match (deserialize order (.ofList package)).result with
        | .error failure => (.error failure, { before with package := package })
        | .ok descriptor => (.ok (), ⟨package, some descriptor⟩)

def errorMsgBuild : InvalidArgument :=
  ⟨"Internal error: fs_mount_point and fs_entry_point must be non-null and non-empty"⟩

/-- `program` is `argv[0]`. -/
def buildArguments (program : CString) (args : CmdlineArgs) (fsMountPoint fsEntryPoint : Option CString) :
    Except InvalidArgument (Option (Int32 × ArgumentBlock)) :=
  match fsMountPoint, fsEntryPoint with
  | some fsMountPoint, some fsEntryPoint =>
      if fsMountPoint.chars = [] ∨ fsEntryPoint.chars = [] then .error errorMsgBuild
      else if args.extract then
        .ok (buildArgumentsForExtract program fsMountPoint (cStr args.extractFolder))
      else .ok (buildArgumentsForRun (args.otherArgs.map cStr) fsMountPoint fsEntryPoint)
  | _, _ => .error errorMsgBuild

/-- The vector has been built, and holds these strings. -/
def StartsWith (built : Except InvalidArgument (Option (Int32 × ArgumentBlock))) (strings : List Str) : Prop :=
  ∃ argc block, built = .ok (some (argc, block)) ∧ PacksExactly strings argc block

/-- An image that is named on the command line is taken for a package exactly when
a header stands at its beginning; without one there is no new descriptor. -/
def LoadsPackage (order : ByteOrder) (args : CmdlineArgs) (image : Str) : Prop :=
  ∀ files before,
    (∀ d package, processPackage order files args before = (.ok (), ⟨package, some d⟩) ↔
      (∃ file, files (cStr image) = some file ∧ file.size = package.length ∧ file.stored = package) ∧
      ∃ header data, IsHeader order d header ∧ package = header ++ data) ∧
    ∀ failure, (processPackage order files args before).1 = .error failure →
      (processPackage order files args before).2.descriptor = before.descriptor

/-- What a command line that is read as `items` starts: the application's own
arguments behind the entry point, and nothing that shows which options there were. -/
structure Starts (order : ByteOrder) (program fsMountPoint fsEntryPoint : CString)
    (items : List CmdlineItem) (args : CmdlineArgs) : Prop where
  rules : args.mountpoints = items.filterMap CmdlineItem.rule
  package : ∀ joined image, .run joined image ∈ items → LoadsPackage order args image
  vector : StartsWith (buildArguments program args (some fsMountPoint) (some fsEntryPoint))
    (program.chars :: (fsMountPoint.chars ++ fsEntryPoint.chars) :: items.filterMap CmdlineItem.passed)
  alike : ∀ others, CmdlineItem.Reads TakenAsOption false others →
    others.filterMap CmdlineItem.passed = items.filterMap CmdlineItem.passed →
    ∃ same, parseArguments (program.chars :: others.flatMap CmdlineItem.arguments) = .ok same ∧
      buildArguments program same (some fsMountPoint) (some fsEntryPoint) =
        buildArguments program args (some fsMountPoint) (some fsEntryPoint)
  unread : ¬ IsFlag fsMountPoint.chars → ∀ strings,
    strings = program.chars :: (fsMountPoint.chars ++ fsEntryPoint.chars) ::
      items.filterMap CmdlineItem.passed → parseArguments strings = .ok { otherArgs := strings }

section Startup

variable {program fsMountPoint fsEntryPoint : CString} {rest : List CString} {items : List CmdlineItem}
variable {args : CmdlineArgs} {order : ByteOrder} {tail list strings : List Str} {arg : Str}

theorem isFlag_of_takenAsOption (option : TakenAsOption arg) : IsFlag arg := by
  rcases option with key | key | rfl | rfl | key
  · obtain ⟨value, rfl⟩ := key
    rfl
  · obtain ⟨value, rfl⟩ := key
    rfl
  · rfl
  · rfl
  · obtain ⟨value, rfl⟩ := key
    rfl

/-- Where there is no option, there is nothing but arguments to pass on. -/
theorem parseArguments_plain (plain : ∀ arg ∈ strings, ¬ TakenAsOption arg) :
    parseArguments strings = .ok { otherArgs := strings } := by
  have reads : CmdlineItem.Reads TakenAsOption false (strings.map CmdlineItem.other) := by
    induction strings with
    | nil => trivial
    | cons arg strings ih =>
        exact ⟨plain arg List.mem_cons_self, nofun, ih fun other member => plain other (by simp [member])⟩
  have arguments : (strings.map CmdlineItem.other).flatMap CmdlineItem.arguments = strings := by
    induction strings with
    | nil => rfl
    | cons arg strings ih =>
        rw [List.map_cons, List.flatMap_cons, ih (fun other member => plain other (by simp [member])) reads.2.2]
        rfl
  have taken (args : CmdlineArgs) : args.takeAll (strings.map CmdlineItem.other) =
      { args with otherArgs := args.otherArgs ++ strings } := by
    clear plain reads arguments
    induction strings generalizing args with
    | nil => simp [takeAll]
    | cons arg strings ih => rw [List.map_cons, takeAll_cons, ih, take, List.append_assoc, List.singleton_append]
  have parsed := @parseFrom_items {} _ [] reads
  rw [arguments, List.append_nil, taken] at parsed
  exact parsed

theorem parseArguments_items (readable : ¬ TakenAsOption program.chars)
    (reads : CmdlineItem.Reads TakenAsOption false items) :
    parseArguments (program.chars :: items.flatMap CmdlineItem.arguments) =
      .ok (takeAll {} (.other program.chars :: items)) := by
  have whole : CmdlineItem.Reads TakenAsOption false (.other program.chars :: items) :=
    ⟨readable, nofun, reads⟩
  have parsed := @parseFrom_items {} _ [] whole
  rw [List.append_nil] at parsed
  exact parsed

theorem passed_sublist (items : List CmdlineItem) :
    (items.filterMap CmdlineItem.passed).Sublist (items.flatMap CmdlineItem.arguments) := by
  induction items with
  | nil => exact .slnil
  | cons item items ih =>
      rw [List.flatMap_cons]
      cases item with
      | run joined image => exact ih.trans (List.sublist_append_right _ _)
      | mount joined rule => exact ih.trans (List.sublist_append_right _ _)
      | other arg => exact ih.cons_cons arg

theorem deserialize_ok_iff {d : PackageDescriptor} {package : List UInt8} :
    (deserialize order (.ofList package)).result = .ok d ↔
      ∃ header data, IsHeader order d header ∧ package = header ++ data := by
  constructor
  · intro accepted
    obtain ⟨header, data, encoded, whole⟩ := header_of_accepted accepted
    rw [Data.Buffer.ofList_bytes] at whole
    exact ⟨header, data, encoded, whole⟩
  · intro begins
    obtain ⟨header, data, encoded, rfl⟩ := begins
    rw [deserialize_consumes.result_eq, Data.Buffer.ofList_bytes, headerParser_append encoded]
    rfl

theorem length_resize (bytes : List UInt8) (size : Nat) : (resize bytes size).length = size := by
  rw [resize, List.length_append, List.length_take, List.length_replicate]
  omega

/-- A file that is read to its end is all of the package. -/
theorem package_of_whole {file : ImageFile} (whole : file.stored.length = file.size) (bytes : List UInt8) :
    file.stored ++ (resize bytes file.size).drop file.stored.length = file.stored := by
  rw [List.drop_of_length_le (by rw [length_resize, whole]), List.append_nil]

theorem loadsPackage {image : Str} (named : args.appImage = image) : LoadsPackage order args image := by
  intro files before
  constructor
  · intro d package
    simp only [processPackage, named, ← deserialize_ok_iff]
    cases found : files (cStr image) with
    | none => simp
    | some file =>
        have within := file.within
        by_cases short : file.stored.length < file.size
        · simp only [short, ↓reduceIte, Prod.mk.injEq, reduceCtorEq, false_and, Option.some.injEq, exists_eq_left',
            false_iff, not_and]
          intro whole accepted
          rw [whole.2] at short
          omega
        · have whole : file.stored.length = file.size := by omega
          simp only [short, ↓reduceIte, package_of_whole whole, Option.some.injEq, exists_eq_left']
          have size : file.size = package.length ∧ file.stored = package ↔ file.stored = package := by
            rw [and_iff_right_iff_imp, ← whole]
            exact congrArg List.length
          rw [size]
          cases read : (deserialize order (.ofList file.stored)).result with
          | error failure =>
              simp only [Prod.mk.injEq, reduceCtorEq, false_and, false_iff, not_and]
              intro same accepted
              rw [← same, read] at accepted
              cases accepted
          | ok other =>
              simp only [Prod.mk.injEq, true_and, Package.mk.injEq, Option.some.injEq]
              refine and_congr_right fun same => ?_
              rw [← same, read, Except.ok.injEq]
  · intro failure failed
    simp only [processPackage] at failed ⊢
    split at failed
    · rfl
    · split at failed
      · rename_i short
        simp only [short, ↓reduceIte]
      · rename_i full
        simp only [full, ↓reduceIte]
        split at failed
        · rfl
        · cases failed

/-- The arguments are copied as they are: what comes from `argv` holds no NUL. -/
theorem chars_of_cStr (plain : ∀ string ∈ strings, nul ∉ string) :
    (strings.map cStr).map CString.chars = strings := by
  rw [List.map_map]
  refine (List.map_congr_left fun string member => ?_).trans (List.map_id _)
  exact cStr_chars_of_noNul (plain string member)

theorem run_vector (plain : ∀ string ∈ strings, nul ∉ string) (few : strings.length + 2 < 2 ^ 31) :
    ∃ argc block, buildArgumentsForRun ((program.chars :: strings).map cStr) fsMountPoint fsEntryPoint =
        some (argc, block) ∧
      PacksExactly (program.chars :: (fsMountPoint.chars ++ fsEntryPoint.chars) :: strings) argc block := by
  have texts : runStrings (program :: strings.map cStr) fsMountPoint fsEntryPoint =
      program.chars :: (fsMountPoint.chars ++ fsEntryPoint.chars) :: strings := by
    rw [runStrings, chars_of_cStr plain]
  rw [List.map_cons, cStr_chars, buildArgumentsForRun_eq, ← texts]
  refine ⟨_, _, rfl, ?_⟩
  constructor
  · rw [texts, List.length_map, List.length_cons, List.length_cons, Int32.toInt_ofNat_of_lt few]
  · exact Data.Block.filled_zero
  · exact Data.Block.filled_zero
  · intro i string found
    exact argument_of_packed runStrings_plain Data.Block.filled_zero Data.Block.filled_zero found
  · exact (@Data.Block.filled_length _ _ 0).symm

theorem extract_vector {folder : CString} :
    ∃ argc block, buildArgumentsForExtract program fsMountPoint folder = some (argc, block) ∧
      PacksExactly [program.chars, ['-', 'e'], extractCommand fsMountPoint folder] argc block := by
  have pieces : [program.terminated, (cStr ['-', 'e']).terminated,
      (cStr (extractCommand fsMountPoint folder)).terminated] =
      [program.chars, ['-', 'e'], extractCommand fsMountPoint folder].map (· ++ [nul]) := by
    simp only [CString.terminated, cStr_chars_of_noNul extractCommand_noNul, List.map_cons, List.map_nil]
    rfl
  refine ⟨_, _, buildArgumentsForExtract_eq, ?_⟩
  constructor
  · rfl
  · rw [← pieces]
    exact Data.Block.filled_zero
  · rw [← pieces]
    exact Data.Block.filled_zero
  · intro i string found
    exact extract_arguments found
  · exact (@Data.Block.filled_length _ _ 0).symm

theorem takeAll_of_run {joined : Bool} {image : Str} (reads : CmdlineItem.Reads TakenAsOption args.run items)
    (member : .run joined image ∈ items) : (args.takeAll items).appImage = image := by
  have named := takeAll_image reads
  have listed : image ∈ (args.takeAll items).images := by
    rw [named]
    exact List.mem_append_right _ (List.mem_filterMap.mpr ⟨_, member, rfl⟩)
  rw [images] at listed
  split at listed
  · exact (List.mem_singleton.mp listed).symm
  · cases listed

theorem takeAll_passed (program : CString) (items : List CmdlineItem) :
    (takeAll {} (.other program.chars :: items)).otherArgs =
      program.chars :: items.filterMap CmdlineItem.passed := by
  rw [takeAll_otherArgs]
  rfl

theorem buildArguments_run (given : fsMountPoint.chars ≠ [] ∧ fsEntryPoint.chars ≠ []) :
    buildArguments program (takeAll {} (.other program.chars :: items)) (some fsMountPoint)
        (some fsEntryPoint) =
      .ok (buildArgumentsForRun ((program.chars :: items.filterMap CmdlineItem.passed).map cStr)
        fsMountPoint fsEntryPoint) := by
  have extract : (takeAll {} (.other program.chars :: items)).extract = false := takeAll_extract
  simp only [buildArguments, given.1, given.2, extract, takeAll_passed, or_self, Bool.false_eq_true,
    ↓reduceIte]

theorem passed_plain (reads : CmdlineItem.Reads TakenAsOption false items) :
    ∀ arg ∈ items.filterMap CmdlineItem.passed, ¬ TakenAsOption arg := by
  intro arg listed
  obtain ⟨item, member, same⟩ := List.mem_filterMap.mp listed
  have readable := readable_of_reads reads item member
  cases item with
  | run joined image => cases same
  | mount joined rule => cases same
  | other other =>
      cases same
      exact readable

theorem starts_of_items (readable : ¬ TakenAsOption program.chars)
    (given : fsMountPoint.chars ≠ [] ∧ fsEntryPoint.chars ≠ []) (few : rest.length + 2 < 2 ^ 31)
    (reads : CmdlineItem.Reads TakenAsOption false items)
    (whole : rest.map CString.chars = items.flatMap CmdlineItem.arguments) :
    Starts order program fsMountPoint fsEntryPoint items (takeAll {} (.other program.chars :: items)) := by
  have within := passed_sublist items
  rw [← whole] at within
  have clean : ∀ string ∈ items.filterMap CmdlineItem.passed, nul ∉ string := by
    intro string member
    obtain ⟨arg, _, rfl⟩ := List.mem_map.mp (within.subset member)
    exact arg.noNul
  have number := within.length_le
  rw [List.length_map] at number
  constructor
  · rw [takeAll_mountpoints]
    rfl
  · intro joined image member
    have all : CmdlineItem.Reads TakenAsOption ({} : CmdlineArgs).run (.other program.chars :: items) :=
      ⟨readable, nofun, reads⟩
    exact loadsPackage (takeAll_of_run all (List.mem_cons_of_mem _ member))
  · obtain ⟨argc, block, built, packed⟩ :=
      @run_vector program fsMountPoint fsEntryPoint _ clean (by omega)
    exact ⟨argc, block, by rw [buildArguments_run given, built], packed⟩
  · intro others othersRead same
    exact ⟨_, parseArguments_items readable othersRead, by
      rw [buildArguments_run given, buildArguments_run given, same]⟩
  · intro inside strings listed
    subst listed
    refine parseArguments_plain fun arg member => ?_
    rcases List.mem_cons.mp member with rfl | member
    · exact readable
    · rcases List.mem_cons.mp member with rfl | member
      · intro option
        have flag := isFlag_of_takenAsOption option
        rw [IsFlag, List.head?_append_of_ne_nil _ given.1] at flag
        exact inside flag
      · exact passed_plain reads arg member

/-- The command line of a packaged application. Read to its end, it starts the
interpreter on the entry point with the arguments that are no options, whichever
options there are between them; read up to an option to extract, it starts the
command that extracts. -/
theorem command_line_starts (order : ByteOrder) (program fsMountPoint fsEntryPoint : CString)
    (rest : List CString) (args : CmdlineArgs) (readable : ¬ TakenAsOption program.chars)
    (given : fsMountPoint.chars ≠ [] ∧ fsEntryPoint.chars ≠ []) (few : rest.length + 2 < 2 ^ 31)
    (parsed : parseArguments ((program :: rest).map CString.chars) = .ok args) :
    ∃ items tail, CmdlineItem.Reads TakenAsOption false items ∧
      rest.map CString.chars = items.flatMap CmdlineItem.arguments ++ tail ∧
      if args.extract then
        Stops (items.any CmdlineItem.isRun) tail (.ok args.extractFolder) ∧
        StartsWith (buildArguments program args (some fsMountPoint) (some fsEntryPoint))
          [program.chars, ['-', 'e'], extractCommand fsMountPoint (cStr args.extractFolder)]
      else tail = [] ∧ Starts order program fsMountPoint fsEntryPoint items args := by
  obtain ⟨items, tail, reads, whole, ended⟩ := reads_to_stop false (rest.map CString.chars)
  have all : CmdlineItem.Reads TakenAsOption ({} : CmdlineArgs).run (.other program.chars :: items) :=
    ⟨readable, nofun, reads⟩
  have split := @parseFrom_items {} _ tail all
  rw [List.flatMap_cons, List.append_assoc, ← whole] at split
  rw [List.map_cons] at parsed
  have extract : (takeAll {} (.other program.chars :: items)).extract = false := takeAll_extract
  refine ⟨items, tail, reads, whole, ?_⟩
  rcases ended with rfl | stops
  · rw [List.append_nil] at whole
    cases parsed.symm.trans split
    rw [if_neg (by simp [extract])]
    exact ⟨rfl, starts_of_items readable given few reads whole⟩
  · obtain ⟨result, stops⟩ := stops
    have run : (takeAll {} (.other program.chars :: items)).run =
        (false || items.any CmdlineItem.isRun) := by
      rw [takeAll_run]
      rfl
    have folder := parsed.symm.trans (split.trans (parseFrom_stops (run ▸ stops)))
    cases result with
    | error failure => cases folder
    | ok folder =>
        cases folder
        obtain ⟨argc, block, built, packed⟩ := @extract_vector program fsMountPoint (cStr folder)
        rw [Bool.false_or] at stops
        refine ⟨stops, argc, block, ?_, packed⟩
        simp only [buildArguments, extractTo, given.1, given.2, or_self, ↓reduceIte, built]

/-- `p --tebako-run d x` -/
def packagedCmdline : List CString := [cStr runKey, cStr ['d'], cStr ['x']]

theorem packaged_program_starts : ∃ items tail, CmdlineItem.Reads TakenAsOption false items ∧
    packagedCmdline.map CString.chars = items.flatMap CmdlineItem.arguments ++ tail ∧
    tail = [] ∧ Starts .little (cStr ['p']) (cStr tebakoMountPoint) (cStr ['/', 'r']) items
      { otherArgs := [['p'], ['x']], appImage := ['d'], run := true } :=
  command_line_starts .little (cStr ['p']) (cStr tebakoMountPoint) (cStr ['/', 'r']) packagedCmdline
    { otherArgs := [['p'], ['x']], appImage := ['d'], run := true }
    (fun option => absurd (isFlag_of_takenAsOption option) (by decide +kernel)) (by decide +kernel)
    (by decide) (by decide +kernel)

end Startup

end Tebako
