import Tebako.ArgumentVector
import Tebako.Data.QuotedLiteral

namespace Tebako

open Data Data.QuotedLiteral ArgumentBlock

/-! The command that extracts an image: a program for the interpreter, with the
mount point and the folder in single quotes. -/

/-- `require `, `; FileUtils.copy_entry ` and the comma between the literals. -/
def extractProgram (fsMountPoint folder : CString) : Program :=
  (['r', 'e', 'q', 'u', 'i', 'r', 'e', ' '],
    [(['f', 'i', 'l', 'e', 'u', 't', 'i', 'l', 's'],
      [';', ' ', 'F', 'i', 'l', 'e', 'U', 't', 'i', 'l', 's', '.', 'c', 'o', 'p', 'y', '_', 'e', 'n',
        't', 'r', 'y', ' ']),
    (fsMountPoint.chars, [',', ' ']), (folder.chars, [])])

/-- The interpreter is given one program, which copies from the mount point to the folder. -/
def CopiesTo (program fsMountPoint folder : CString) : Prop :=
  ∃ block, buildArgumentsForExtract program fsMountPoint folder = some (3, block) ∧
    block.argument 0 = some program.chars ∧ block.argument 1 = some ['-', 'e'] ∧
    ∃ text, block.argument 2 = some text ∧ readCode text = some (extractProgram fsMountPoint folder)

variable {program fsMountPoint folder : CString}

theorem extractCommand_noNul : nul ∉ extractCommand fsMountPoint folder := by
  simp only [extractCommand, List.mem_append, not_or]
  exact ⟨⟨⟨⟨by decide, fsMountPoint.noNul⟩, by decide⟩, folder.noNul⟩, by decide⟩

theorem readCode_extractCommand :
    readCode (extractCommand fsMountPoint folder) = some (extractProgram fsMountPoint folder) ↔
      Plain fsMountPoint.chars ∧ Plain folder.chars := by
  have command : extractCommand fsMountPoint folder =
      ['r', 'e', 'q', 'u', 'i', 'r', 'e', ' '] ++ '\'' ::
      (['f', 'i', 'l', 'e', 'u', 't', 'i', 'l', 's'] ++ '\'' ::
      ([';', ' ', 'F', 'i', 'l', 'e', 'U', 't', 'i', 'l', 's', '.', 'c', 'o', 'p', 'y', '_', 'e', 'n',
        't', 'r', 'y', ' '] ++ '\'' ::
      (fsMountPoint.chars ++ '\'' :: ([',', ' '] ++ '\'' :: (folder.chars ++ ['\'']))))) := by
    simp [extractCommand]
  have library : Plain ['f', 'i', 'l', 'e', 'u', 't', 'i', 'l', 's'] := by decide
  have ended : readCode [] = some ([], []) := rfl
  rw [command, extractProgram, readCode_literal_iff (by decide), readLiteral_iff,
    readCode_literal_iff (by decide), readLiteral_iff, readCode_literal_iff (by decide),
    readLiteral_iff]
  simp only [library, ended, true_and, and_true]

/-- All three arguments are there, whatever the mount point and the folder are. -/
theorem buildArgumentsForExtract_eq :
    buildArgumentsForExtract program fsMountPoint folder = some (3,
      progress (Block.starts 0 [program.terminated, (cStr ['-', 'e']).terminated,
          (cStr (extractCommand fsMountPoint folder)).terminated]) 0
        [program.terminated, (cStr ['-', 'e']).terminated,
          (cStr (extractCommand fsMountPoint folder)).terminated].flatten 0) := by
  have size : 3 + (extractCommand fsMountPoint folder).length + 1 + program.chars.length + 1 =
      program.terminated.length + ((cStr ['-', 'e']).terminated.length +
        ((cStr (extractCommand fsMountPoint folder)).terminated.length + 0)) := by
    simp only [CString.terminated, List.length_append, List.length_singleton,
      cStr_chars_of_noNul extractCommand_noNul]
    change _ = program.chars.length + 1 + (3 + _)
    omega
  have name := @place_progress [] [] program.terminated 2
    ((cStr ['-', 'e']).terminated.length +
      ((cStr (extractCommand fsMountPoint folder)).terminated.length + 0)) 0 rfl
  have flag := @place_progress [0] program.terminated (cStr ['-', 'e']).terminated 1
    ((cStr (extractCommand fsMountPoint folder)).terminated.length + 0) 1 rfl
  have command := @place_progress [0, program.terminated.length]
    (program.terminated ++ (cStr ['-', 'e']).terminated)
    (cStr (extractCommand fsMountPoint folder)).terminated 0 0 2 rfl
  simp only [List.nil_append, List.length_nil] at name
  simp only [List.cons_append, List.nil_append] at flag
  simp only [buildArgumentsForExtract, size, allocate_eq]
  simp only [name, flag, command, Option.bind_eq_bind, Option.bind_some]
  simp only [Block.starts, List.flatten_cons, List.flatten_nil, List.cons_append, List.nil_append,
    List.append_nil, Nat.zero_add, List.append_assoc, List.length_append]
  rfl

theorem extract_arguments {index : Nat} {text : Str}
    (found : [program.chars, ['-', 'e'], extractCommand fsMountPoint folder][index]? = some text) :
    (progress (Block.starts 0 [program.terminated, (cStr ['-', 'e']).terminated,
          (cStr (extractCommand fsMountPoint folder)).terminated]) 0
        [program.terminated, (cStr ['-', 'e']).terminated,
          (cStr (extractCommand fsMountPoint folder)).terminated].flatten 0).argument index =
      some text := by
  have pieces : [program.terminated, (cStr ['-', 'e']).terminated,
      (cStr (extractCommand fsMountPoint folder)).terminated] =
      [program.chars, ['-', 'e'], extractCommand fsMountPoint folder].map (· ++ [nul]) := by
    simp only [CString.terminated, cStr_chars_of_noNul extractCommand_noNul, List.map_cons,
      List.map_nil]
    rfl
  rw [pieces]
  refine argument_of_packed ?_ Block.filled_zero Block.filled_zero found
  intro string member
  simp only [List.mem_cons, List.not_mem_nil, or_false] at member
  rcases member with rfl | rfl | rfl
  · exact program.noNul
  · decide
  · exact extractCommand_noNul

/-- The program names the mount point and the folder exactly when both stand for
themselves in single quotes; nothing is escaped. -/
theorem extract_command_iff (program fsMountPoint folder : CString) :
    CopiesTo program fsMountPoint folder ↔ Plain fsMountPoint.chars ∧ Plain folder.chars := by
  rw [← readCode_extractCommand]
  constructor
  · intro copies
    obtain ⟨block, built, _, _, text, command, read⟩ := copies
    rw [buildArgumentsForExtract_eq] at built
    cases built
    rw [extract_arguments (show _ = some (extractCommand fsMountPoint folder) from rfl)] at command
    cases command
    exact read
  · intro read
    exact ⟨_, buildArgumentsForExtract_eq, extract_arguments rfl, extract_arguments rfl, _,
      extract_arguments rfl, read⟩

/-- A folder named `a'b` ends the literal before the quote. -/
theorem quoted_folder_not_copied :
    ¬ ∀ program fsMountPoint folder : CString, CopiesTo program fsMountPoint folder := by
  intro always
  obtain ⟨block, built, _, _, text, command, read⟩ :=
    always (cStr ['p']) (cStr ['/', 'm']) (cStr ['a', '\'', 'b'])
  rw [buildArgumentsForExtract_eq] at built
  cases built
  rw [extract_arguments (show _ = some (extractCommand _ _) from rfl)] at command
  cases command
  exact absurd (readCode_extractCommand.mp read).2 (by decide)

end Tebako
