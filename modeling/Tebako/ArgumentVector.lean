import Tebako.Cmdline
import Tebako.Data.Block

namespace Tebako

open Data

/-! The argument vector for the interpreter: strings in one block of memory, and an
array of pointers to them. -/

def nul : Char := Char.ofNat 0

/-- The characters of a C string and its terminating NUL. -/
def CString.terminated (text : CString) : List Char := text.chars ++ [nul]

/-- `new_argv`, `new_argv_memory`, and the running pointer into the latter. -/
structure ArgumentBlock where
  newArgv : List (Option Nat)
  newArgvMemory : List (Option Char)
  argvMemory : Nat

namespace ArgumentBlock

def allocate (arguments size : Nat) : ArgumentBlock := ⟨Block.fresh arguments, Block.fresh size, 0⟩

/-- Copies to where the running pointer is, and moves it behind the copy. -/
def append (bytes : List Char) (block : ArgumentBlock) : Option ArgumentBlock := do
  let memory ← Block.write block.newArgvMemory block.argvMemory bytes
  return ⟨block.newArgv, memory, block.argvMemory + bytes.length⟩

/-- `append` for the beginning of an argument, which is entered in the array. -/
def place (index : Nat) (bytes : List Char) (block : ArgumentBlock) : Option ArgumentBlock := do
  let memory ← Block.write block.newArgvMemory block.argvMemory bytes
  let newArgv ← Block.write block.newArgv index [block.argvMemory]
  return ⟨newArgv, memory, block.argvMemory + bytes.length⟩

/-- The loop over the arguments from `i` on. -/
def copyRemaining : Nat → List CString → ArgumentBlock → Option ArgumentBlock
  | _, [], block => some block
  | i, arg :: rest, block => do
      let block ← block.place (i + 1) arg.terminated
      copyRemaining (i + 1) rest block

/-- `new_argv[index]` as a string. -/
def argument (block : ArgumentBlock) (index : Nat) : Option Str :=
  match block.newArgv[index]? with
  | some (some offset) => Block.readTo nul (block.newArgvMemory.drop offset)
  | _ => none

end ArgumentBlock

open ArgumentBlock

/-- `new_argc` and what `new_argv` points to. There is no first argument to copy in
an empty vector. -/
def buildArgumentsForRun (otherArgs : List CString) (fsMountPoint fsEntryPoint : CString) :
    Option (Int32 × ArgumentBlock) :=
  match otherArgs with
  | [] => none
  | first :: rest => do
      let newArgvSize := otherArgs.foldl (fun size arg => size + (arg.chars.length + 1))
        (fsMountPoint.chars.length + fsEntryPoint.chars.length + 1)
      let block := allocate (otherArgs.length + 1) newArgvSize
      let block ← block.place 0 first.terminated
      let block ← block.place 1 fsMountPoint.chars
      let block ← block.append fsEntryPoint.terminated
      let block ← block.copyRemaining 1 rest
      return (Int32.ofNat (otherArgs.length + 1), block)

/-- `ruby -e "require 'fileutils'; FileUtils.copy_entry '..', '..'"` -/
def extractCommand (fsMountPoint folder : CString) : Str :=
  ['r', 'e', 'q', 'u', 'i', 'r', 'e', ' ', '\'', 'f', 'i', 'l', 'e', 'u', 't', 'i', 'l', 's', '\'', ';',
    ' ', 'F', 'i', 'l', 'e', 'U', 't', 'i', 'l', 's', '.', 'c', 'o', 'p', 'y', '_', 'e', 'n', 't', 'r',
    'y', ' ', '\''] ++ fsMountPoint.chars ++ ['\'', ',', ' ', '\''] ++ folder.chars ++ ['\'']

/-- The command is copied with `strcpy` from a `std::string`. -/
def buildArgumentsForExtract (program fsMountPoint extractFolder : CString) :
    Option (Int32 × ArgumentBlock) := do
  let cmd := extractCommand fsMountPoint extractFolder
  let newArgvSize := 3 + cmd.length + 1 + program.chars.length + 1
  let block := allocate 3 newArgvSize
  let block ← block.place 0 program.terminated
  let block ← block.place 1 (cStr ['-', 'e']).terminated
  let block ← block.place 2 (cStr cmd).terminated
  return (3, block)

/-! ## Filling the block -/

section Filling

variable {entered : List Nat} {written bytes : List Char} {slots room index : Nat}

/-- The state in which `entered` and `written` are there, with room for more. -/
def progress (entered : List Nat) (slots : Nat) (written : List Char) (room : Nat) : ArgumentBlock :=
  ⟨Block.filled entered slots, Block.filled written room, written.length⟩

theorem allocate_eq (arguments size : Nat) : allocate arguments size = progress [] arguments [] size := rfl

theorem append_progress :
    (progress entered slots written (bytes.length + room)).append bytes =
      some (progress entered slots (written ++ bytes) room) := by
  have copied := @Block.write_filled _ written bytes _ (Nat.le_add_right bytes.length room)
  rw [Nat.add_sub_cancel_left] at copied
  simp only [append, progress, copied, List.length_append]
  rfl

theorem place_progress (next : index = entered.length) :
    (progress entered (slots + 1) written (bytes.length + room)).place index bytes =
      some (progress (entered ++ [written.length]) slots (written ++ bytes) room) := by
  have copied := @Block.write_filled _ written bytes _ (Nat.le_add_right bytes.length room)
  have pointer : Block.write (Block.filled entered (slots + 1)) index [written.length] =
      some (Block.filled (entered ++ [written.length]) slots) := by
    rw [next]
    exact Block.write_filled (Nat.le_add_left _ _)
  rw [Nat.add_sub_cancel_left] at copied
  simp only [place, progress, copied, pointer, List.length_append]
  rfl

/-- The loop fills what is left when there is exactly room for the arguments. -/
theorem copyRemaining_progress {rest : List CString} (next : index + 1 = entered.length) :
    copyRemaining index rest
        (progress entered rest.length written (rest.map CString.terminated).flatten.length) =
      some (progress (entered ++ Block.starts written.length (rest.map CString.terminated)) 0
        (written ++ (rest.map CString.terminated).flatten) 0) := by
  induction rest generalizing index entered written with
  | nil => simp [copyRemaining, Block.starts]
  | cons arg rest ih =>
      have size : (((arg :: rest).map CString.terminated).flatten).length =
          arg.terminated.length + ((rest.map CString.terminated).flatten).length := by
        rw [List.map_cons, List.flatten_cons, List.length_append]
      have placed := @place_progress entered written arg.terminated rest.length
        ((rest.map CString.terminated).flatten).length (index + 1) next
      have later := @ih (entered ++ [written.length]) (written ++ arg.terminated) (index + 1)
        (by rw [List.length_append, next]; rfl)
      rw [size, List.length_cons]
      simp only [copyRemaining, placed, Option.bind_eq_bind, Option.bind_some, later]
      simp only [List.map_cons, List.flatten_cons, Block.starts, List.append_assoc,
        List.cons_append, List.nil_append, List.length_append]

end Filling

/-! ## What a vector holds -/

/-- `strings` are packed: each in its place in the array, one after the other in a
block that the last one ends with. -/
structure PacksExactly (strings : List Str) (argc : Int32) (block : ArgumentBlock) : Prop where
  argc : argc.toInt = strings.length
  consecutive : block.newArgvMemory = ((strings.map (· ++ [nul])).flatten).map some
  starts : block.newArgv = (Block.starts 0 (strings.map (· ++ [nul]))).map some
  arguments : ∀ i string, strings[i]? = some string → block.argument i = some string
  ended : block.argvMemory = block.newArgvMemory.length

theorem argument_of_packed {strings : List Str} {block : ArgumentBlock} {i : Nat} {string : Str}
    (plain : ∀ string ∈ strings, nul ∉ string)
    (consecutive : block.newArgvMemory = ((strings.map (· ++ [nul])).flatten).map some)
    (starts : block.newArgv = (Block.starts 0 (strings.map (· ++ [nul]))).map some)
    (found : strings[i]? = some string) : block.argument i = some string := by
  have piece : (strings.map (· ++ [nul]))[i]? = some (string ++ [nul]) := by
    rw [List.getElem?_map, found]
    rfl
  obtain ⟨offset, rest, start, same⟩ := @Block.drop_starts _ [] i _ _ piece
  have pointer : block.newArgv[i]? = some (some offset) := by
    rw [starts, List.getElem?_map]
    exact congrArg (Option.map some) start
  have text : block.newArgvMemory.drop offset = string.map some ++ some nul :: rest.map some := by
    rw [consecutive, ← List.map_drop]
    change List.map some (List.drop offset ([] ++ _)) = _
    rw [same]
    simp only [List.map_append, List.map_cons, List.append_assoc, List.cons_append, List.nil_append]
  simp only [argument, pointer, text]
  exact Block.readTo_terminated (plain _ (List.mem_of_getElem? found)) _

theorem foldl_size (otherArgs : List CString) (size : Nat) :
    otherArgs.foldl (fun size arg => size + (arg.chars.length + 1)) size =
      size + (otherArgs.map CString.terminated).flatten.length := by
  induction otherArgs generalizing size with
  | nil => rfl
  | cons arg rest ih =>
      rw [List.foldl_cons, ih, List.map_cons, List.flatten_cons, List.length_append,
        CString.terminated, List.length_append, List.length_singleton]
      omega

/-- The arguments for a run: the image's entry point after the program's name. -/
def runStrings (otherArgs : List CString) (fsMountPoint fsEntryPoint : CString) : List Str :=
  match otherArgs with
  | [] => []
  | first :: rest => first.chars :: (fsMountPoint.chars ++ fsEntryPoint.chars) :: rest.map CString.chars

section Run

variable {first fsMountPoint fsEntryPoint : CString} {rest : List CString}

theorem runStrings_pieces :
    (runStrings (first :: rest) fsMountPoint fsEntryPoint).map (· ++ [nul]) =
      first.terminated :: (fsMountPoint.chars ++ fsEntryPoint.terminated) ::
        rest.map CString.terminated := by
  simp only [runStrings, List.map_cons, List.map_map, CString.terminated, List.append_assoc]
  rfl

theorem runStrings_plain :
    ∀ string ∈ runStrings (first :: rest) fsMountPoint fsEntryPoint, nul ∉ string := by
  intro string member
  simp only [runStrings, List.mem_cons, List.mem_map] at member
  rcases member with rfl | rfl | ⟨arg, _, rfl⟩
  · exact first.noNul
  · rw [List.mem_append, not_or]
    exact ⟨fsMountPoint.noNul, fsEntryPoint.noNul⟩
  · exact arg.noNul

/-- No write goes past the end of the block, and the last one ends there. -/
theorem buildArgumentsForRun_eq :
    buildArgumentsForRun (first :: rest) fsMountPoint fsEntryPoint =
      some (Int32.ofNat (rest.length + 2),
        progress (Block.starts 0
          ((runStrings (first :: rest) fsMountPoint fsEntryPoint).map (· ++ [nul]))) 0
          ((runStrings (first :: rest) fsMountPoint fsEntryPoint).map (· ++ [nul])).flatten 0) := by
  have size : (first :: rest).foldl (fun size arg => size + (arg.chars.length + 1))
      (fsMountPoint.chars.length + fsEntryPoint.chars.length + 1) =
      first.terminated.length + (fsMountPoint.chars.length + (fsEntryPoint.terminated.length +
        (rest.map CString.terminated).flatten.length)) := by
    rw [foldl_size, List.map_cons, List.flatten_cons, List.length_append]
    simp only [CString.terminated, List.length_append, List.length_singleton]
    omega
  have program := @place_progress [] [] first.terminated (rest.length + 1)
    (fsMountPoint.chars.length + (fsEntryPoint.terminated.length +
      (rest.map CString.terminated).flatten.length)) 0 rfl
  have mountPoint := @place_progress [0] first.terminated fsMountPoint.chars rest.length
    (fsEntryPoint.terminated.length + (rest.map CString.terminated).flatten.length) 1 rfl
  have entryPoint := @append_progress [0, first.terminated.length]
    (first.terminated ++ fsMountPoint.chars) fsEntryPoint.terminated rest.length
    (rest.map CString.terminated).flatten.length
  have remaining := @copyRemaining_progress [0, first.terminated.length]
    (first.terminated ++ fsMountPoint.chars ++ fsEntryPoint.terminated) 1 rest rfl
  simp only [List.nil_append, List.length_nil] at program
  simp only [List.cons_append, List.nil_append] at mountPoint
  simp only [buildArgumentsForRun, size, allocate_eq, List.length_cons]
  simp only [program, mountPoint, entryPoint, remaining, Option.bind_eq_bind, Option.bind_some]
  rw [runStrings_pieces]
  simp only [Block.starts, List.flatten_cons, List.cons_append, List.nil_append, Nat.zero_add,
    List.append_assoc, List.length_append]
  rfl

/-- The arguments of a run are packed exactly when an `int` can hold their number. -/
theorem run_arguments_packed_iff (first : CString) (rest : List CString)
    (fsMountPoint fsEntryPoint : CString) :
    (∃ argc block, buildArgumentsForRun (first :: rest) fsMountPoint fsEntryPoint = some (argc, block) ∧
      PacksExactly (runStrings (first :: rest) fsMountPoint fsEntryPoint) argc block) ↔
      (first :: rest).length < 2 ^ 31 - 1 := by
  have number : (runStrings (first :: rest) fsMountPoint fsEntryPoint).length = rest.length + 2 := by
    rw [runStrings, List.length_cons, List.length_cons, List.length_map]
  rw [List.length_cons, buildArgumentsForRun_eq]
  constructor
  · intro packed
    obtain ⟨argc, block, built, packed⟩ := packed
    cases built
    have bound := Int32.toInt_lt (Int32.ofNat (rest.length + 2))
    rw [packed.argc, number] at bound
    omega
  · intro few
    refine ⟨_, _, rfl, ?_⟩
    constructor
    · rw [number, Int32.toInt_ofNat_of_lt (by omega)]
    · exact Block.filled_zero
    · exact Block.filled_zero
    · intro i string found
      exact argument_of_packed runStrings_plain Block.filled_zero Block.filled_zero found
    · exact (@Block.filled_length _ _ 0).symm

/-- The number of 2147483647 arguments and one more does not fit into an `int`. -/
theorem number_of_arguments_lost : ¬ ∀ (first : CString) (rest : List CString)
    (fsMountPoint fsEntryPoint : CString),
    ∃ argc block, buildArgumentsForRun (first :: rest) fsMountPoint fsEntryPoint = some (argc, block) ∧
      PacksExactly (runStrings (first :: rest) fsMountPoint fsEntryPoint) argc block := by
  intro always
  obtain ⟨argc, block, built, packed⟩ := always (cStr ['p']) (List.replicate (2 ^ 31 - 2) (cStr ['a']))
    (cStr ['/', 'm']) (cStr ['/', 'e'])
  have bound := Int32.toInt_lt argc
  rw [packed.argc, runStrings, List.length_cons, List.length_cons, List.length_map,
    List.length_replicate] at bound
  omega

end Run

end Tebako
