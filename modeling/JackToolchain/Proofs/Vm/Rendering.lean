import JackToolchain.Proofs.Assembly.Reading
import JackToolchain.Proofs.Text.Covering
import JackToolchain.Proofs.Vm.Spelling

/-!
# Rendered programs

The text of a program of well-spelled commands is read back as these commands, each with the span
of its line: the line is the words of its command, and every word is read as what it was written
for.
-/
namespace JackToolchain.Vm

open Text (IsWord Legible placed words written)

/-- The words of the text of a command. -/
def Command.words : Command → List String
  | .operate operation => [operation.name]
  | .push segment index => ["push", segment.name, index.repr]
  | .pop segment index => ["pop", segment.name, index.repr]
  | .label name => ["label", name]
  | .goto name => ["goto", name]
  | .ifGoto name => ["if-goto", name]
  | .function name locals => ["function", name, locals.repr]
  | .call name args => ["call", name, args.repr]
  | .return => ["return"]

section Words

variable {command : Command} {name : String}

/-- A command has a word. -/
theorem Command.words_ne_nil (command : Command) : command.words.map String.toList ≠ [] := by
  cases command <;> exact List.cons_ne_nil _ _

/-- The text of a command is its words with spaces between them. -/
theorem toList_text (command : Command) :
    command.text.toList = [' '].intercalate (command.words.map String.toList) := by
  cases command <;>
    simp [Command.text, Command.words, List.intercalate_cons_cons, List.intercalate_singleton]

/-- A name of the language is a word. -/
theorem isWord_of_isName (named : isName name.toList = true) : IsWord name.toList := by
  obtain ⟨filled, own, _⟩ := all_isNameChar_of_isName named
  refine ⟨filled, fun c member => ?_⟩
  obtain ⟨noSlash, _, visible⟩ := visible_of_isNameChar (List.all_eq_true.mp own c member)
  exact ⟨noSlash, visible⟩

/-- A numeral is a word. -/
theorem isWord_repr (number : Nat) : IsWord number.repr.toList := by
  obtain ⟨filled, own⟩ := all_isNameChar_repr number
  refine ⟨filled, fun c member => ?_⟩
  obtain ⟨noSlash, _, visible⟩ := visible_of_isNameChar (List.all_eq_true.mp own c member)
  exact ⟨noSlash, visible⟩

/-- The name of a segment is a word. -/
theorem isWord_segment (segment : Segment) : IsWord segment.name.toList := by
  cases segment <;> exact isWord_of_isName (by decide)

/-- The name of an operation is a word. -/
theorem isWord_operation (operation : Operation) : IsWord operation.name.toList := by
  cases operation <;> exact isWord_of_isName (by decide)

/-- A text of letters and hyphens is a word. -/
private theorem isWord_opcode {text : String} (filled : text.toList ≠ [])
    (own : text.toList.all (fun c => c.isAlpha || c == '-') = true) : IsWord text.toList := by
  refine ⟨filled, fun c member => ?_⟩
  have char := List.all_eq_true.mp own c member
  rw [Bool.or_eq_true, beq_iff_eq] at char
  rcases char with letter | rfl
  · have nameChar : isNameChar c = true := by
      simp [isNameChar, Char.isAlphanum, letter]
    obtain ⟨noSlash, _, visible⟩ := visible_of_isNameChar nameChar
    exact ⟨noSlash, visible⟩
  · decide

/-- The words of a well-spelled command are words of a line. -/
theorem isWord_of_mem_words (spelled : command.Spelled) :
    ∀ word ∈ command.words.map String.toList, IsWord word := by
  cases command with
  | operate operation => exact List.forall_mem_singleton.mpr (isWord_operation operation)
  | push segment index =>
    exact List.forall_mem_cons.mpr ⟨isWord_opcode (by decide) (by decide),
      List.forall_mem_cons.mpr ⟨isWord_segment segment,
        List.forall_mem_singleton.mpr (isWord_repr index)⟩⟩
  | pop segment index =>
    exact List.forall_mem_cons.mpr ⟨isWord_opcode (by decide) (by decide),
      List.forall_mem_cons.mpr ⟨isWord_segment segment,
        List.forall_mem_singleton.mpr (isWord_repr index)⟩⟩
  | label name =>
    exact List.forall_mem_cons.mpr ⟨isWord_opcode (by decide) (by decide),
      List.forall_mem_singleton.mpr (isWord_of_isName spelled)⟩
  | goto name =>
    exact List.forall_mem_cons.mpr ⟨isWord_opcode (by decide) (by decide),
      List.forall_mem_singleton.mpr (isWord_of_isName spelled)⟩
  | ifGoto name =>
    exact List.forall_mem_cons.mpr ⟨isWord_opcode (by decide) (by decide),
      List.forall_mem_singleton.mpr (isWord_of_isName spelled)⟩
  | function name locals =>
    exact List.forall_mem_cons.mpr ⟨isWord_opcode (by decide) (by decide),
      List.forall_mem_cons.mpr ⟨isWord_of_isName spelled.1,
        List.forall_mem_singleton.mpr (isWord_repr locals)⟩⟩
  | call name args =>
    exact List.forall_mem_cons.mpr ⟨isWord_opcode (by decide) (by decide),
      List.forall_mem_cons.mpr ⟨isWord_of_isName spelled.1,
        List.forall_mem_singleton.mpr (isWord_repr args)⟩⟩
  | «return» => exact List.forall_mem_singleton.mpr (isWord_opcode (by decide) (by decide))

end Words

/-! ## Reading -/

section Reading

variable {command : Command} {line : String}

/-- A numeral of 32 bits is read as its number. -/
theorem readIndex_repr {value : Nat} (small : value < Text.bound32) :
    readIndex line value.repr.toList = .ok value := by
  rw [readIndex, Assembly.toList_repr, Text.readDecimal?_toDigits]
  dsimp only
  rw [if_pos small]

/-- A name of the language is read as it is. -/
theorem readName_toList {name : String} (named : isName name.toList = true) :
    readName line name.toList = .ok name := by
  rw [readName, if_pos named, String.ofList_toList]

/-- The name of a segment is read as the segment. -/
theorem readSegment_name (segment : Segment) :
    readSegment line segment.name.toList = .ok segment := by
  rw [readSegment, String.ofList_toList, Segment.ofName?_name]

/-- The words of a well-spelled command are read as the command. -/
theorem ofWords_words (spelled : command.Spelled) :
    Command.ofWords line (command.words.map String.toList) = .ok command := by
  cases command with
  | operate operation =>
    simp only [Command.words, List.map_cons, List.map_nil, Command.ofWords, String.ofList_toList,
      Operation.ofName?_name]
    rfl
  | push segment index =>
    change readAccess .push line [segment.name.toList, index.repr.toList] = _
    rw [readAccess, readSegment_name, readIndex_repr spelled]
    rfl
  | pop segment index =>
    change readAccess .pop line [segment.name.toList, index.repr.toList] = _
    rw [readAccess, readSegment_name, readIndex_repr spelled]
    rfl
  | label name =>
    change readNamed .label line [name.toList] = _
    rw [readNamed, readName_toList spelled]
    rfl
  | goto name =>
    change readNamed .goto line [name.toList] = _
    rw [readNamed, readName_toList spelled]
    rfl
  | ifGoto name =>
    change readNamed .ifGoto line [name.toList] = _
    rw [readNamed, readName_toList spelled]
    rfl
  | function name locals =>
    change readCounted .function line [name.toList, locals.repr.toList] = _
    rw [readCounted, readName_toList spelled.1, readIndex_repr spelled.2]
    rfl
  | call name args =>
    change readCounted .call line [name.toList, args.repr.toList] = _
    rw [readCounted, readName_toList spelled.1, readIndex_repr spelled.2]
    rfl
  | «return» => rfl

/-- The text of a well-spelled command is read as the command. -/
theorem read_text (spelled : command.Spelled) : Command.read command.text = .ok command := by
  rw [Command.read, toList_text,
    (Text.words_line command.words_ne_nil (isWord_of_mem_words spelled)).1, ofWords_words spelled]

/-- The text of a well-spelled command is read as it stands. -/
theorem legible_text (spelled : command.Spelled) : Legible command.text.toList := by
  rw [toList_text]
  exact (Text.words_line command.words_ne_nil (isWord_of_mem_words spelled)).2.1

/-- The text of a well-spelled command stands on one line. -/
theorem whole_text (spelled : command.Spelled) : '\n' ∉ command.text.toList := by
  obtain ⟨_, _, chars⟩ := Text.words_line command.words_ne_nil (isWord_of_mem_words spelled)
  rw [← toList_text] at chars
  intro member
  rcases chars _ member with space | visible
  · exact absurd space (by decide)
  · exact absurd visible (by decide)

/-- The rendered commands are written to a line each. -/
theorem render_eq_written (commands : List Command) :
    render commands = written Command.text commands := rfl

/-- The text of well-spelled commands is read as these commands with the spans of their lines. -/
theorem readProgram_render {commands : List Command}
    (spelled : ∀ command ∈ commands, command.Spelled) :
    readProgram (render commands) = .ok (placed Command.text "" commands) := by
  have nodes : (placed Command.text "" commands).map (fun item => item.node) = commands :=
    Text.map_node_placed ""
  rw [readProgram, render_eq_written,
    Text.items_written (fun command member => legible_text (spelled command member))
      (fun command member => whole_text (spelled command member)),
    mapM_eq_ok, List.forall₂_map_left_iff, List.forall₂_same]
  intro item member
  have known : item.node ∈ commands := by
    rw [← nodes]
    exact List.mem_map_of_mem member
  rw [read_text (spelled item.node known)]

end Reading

end JackToolchain.Vm
