import JackToolchain.Proofs.Assembly.Legality
import JackToolchain.Proofs.Assembly.Places
import JackToolchain.Proofs.Assembly.Reference
import JackToolchain.Proofs.Machine.Computation
import JackToolchain.Proofs.Text.Covering

/-!
# Printing assembled programs

Reading a compute instruction asks for no more than a computation, so its fields may be any text and
the printed instruction may be read as another one. The fields of an assembled program have
encodings, and there are few texts that have one: all of them are read back. So a program is printed
to a text that is assembled to the same words and symbols.
-/
namespace JackToolchain.Assembly

open Machine (IsWritten isComputation isOperand isWritten_of_encodeCompute)
open Text (items placed written)

/-! ## Instructions of assembled programs -/

section Instructions

variable {dest comp jump line : String} {instruction : Instruction}

/-- A computation is made of the characters of compute instructions. -/
theorem contains_of_isComputation {text : List Char} (own : isComputation text = true) :
    text ≠ [] ∧ ∀ c ∈ text, computeChars.contains c = true := by
  have operand {c : Char} (known : isOperand c = true) : computeChars.contains c = true := by
    have all : ['0', '1', 'D', 'A', 'M'].all (computeChars.contains ·) = true := by decide
    exact List.all_eq_true.mp all c (List.contains_iff_mem.mp known)
  have mark {c : Char} {marks : List Char} (known : marks.contains c = true)
      (all : marks.all (computeChars.contains ·) = true) : computeChars.contains c = true :=
    List.all_eq_true.mp all c (List.contains_iff_mem.mp known)
  unfold isComputation at own
  split at own
  · exact ⟨List.cons_ne_nil _ _, List.forall_mem_singleton.mpr (operand own)⟩
  · rw [Bool.and_eq_true] at own
    refine ⟨List.cons_ne_nil _ _, List.forall_mem_cons.mpr ⟨mark own.1 (by decide), ?_⟩⟩
    exact List.forall_mem_singleton.mpr (operand own.2)
  · rw [Bool.and_eq_true, Bool.and_eq_true] at own
    refine ⟨List.cons_ne_nil _ _, List.forall_mem_cons.mpr ⟨operand own.1.1, ?_⟩⟩
    refine List.forall_mem_cons.mpr ⟨mark own.1.2 (by decide), ?_⟩
    exact List.forall_mem_singleton.mpr (operand own.2)
  · exact absurd own Bool.false_ne_true

/-- The texts of a compute instruction that mean something are legal fields. -/
theorem legal_of_isWritten (own : IsWritten dest comp jump) :
    (Instruction.compute dest comp jump).Legal := by
  obtain ⟨filled, chars⟩ := contains_of_isComputation own.comp
  have letters : ['A', 'D', 'M'].all (computeChars.contains ·) = true := by decide
  have jumps : ∀ jump ∈ Machine.jumpConditions, isField jump = true := by decide
  refine ⟨?_, List.all_eq_true.mpr chars, jumps jump own.jump, ?_⟩
  · exact List.all_eq_true.mpr fun c member => List.all_eq_true.mp letters c (own.dest c member)
  · rintro rfl
    exact filled rfl

/-- An instruction that is read is legal if it has a word or is a label. -/
theorem legal_of_read (read : Instruction.read line = .ok instruction)
    (encodable : instruction.isEncodable = true) : instruction.Legal := by
  have symbol {text : List Char} (own : isSymbol text = true) :
      isSymbol (String.ofList text).toList = true := by
    rwa [String.toList_ofList]
  unfold Instruction.read at read
  split at read
  · rcases of_readAddress read with ⟨value, rfl, small, -⟩ | ⟨rfl, own⟩
    · exact small
    · exact symbol own
  · unfold readLabel at read
    split at read
    · obtain ⟨name, named, made⟩ := bind_eq_ok.mp read
      obtain ⟨rfl, own⟩ := of_readSymbol named
      obtain rfl := Except.ok.inj made
      exact symbol own
    · contradiction
  · unfold readCompute at read
    dsimp only at read
    split at read
    · contradiction
    · obtain rfl := Except.ok.inj read
      obtain ⟨word, encoded⟩ := Option.isSome_iff_exists.mp encodable
      exact legal_of_isWritten (isWritten_of_encodeCompute encoded)

/-- The instructions of an assembled program are legal. -/
theorem legal_of_assembled {source : String} {nodes : List (Spanned Instruction)}
    {program : Program} (read : readProgram source = .ok nodes)
    (assembled : assembleInstructions nodes = .ok program) :
    ∀ instruction ∈ instructionsOf nodes, instruction.Legal := by
  have encodable := all_isEncodable.mpr (assemblable_of_assembleInstructions assembled).encodable
  intro instruction member
  obtain ⟨node, inside, rfl⟩ := List.mem_map.mp member
  obtain ⟨item, -, made⟩ := exists_mem_left (mapM_eq_ok.mp read) inside
  cases own : Instruction.read item.node with
  | error fault =>
    rw [own] at made
    contradiction
  | ok instruction =>
    rw [own] at made
    obtain rfl := Except.ok.inj made
    exact legal_of_read own (List.all_eq_true.mp encodable _ member)

end Instructions

/-! ## Printed programs -/

section Programs

variable {code : List Instruction}

/-- A line end behind the last line makes no difference to the items of a text. -/
theorem items_lineEnd (text : String) :
    (items (text ++ "\n")).map (fun item => item.node) =
      (items text).map fun item => item.node := by
  have contents (other : String) : (items other).map (fun item => item.node) =
      ((Text.lines other.toList).map Prod.snd).filterMap Text.cleaned := by
    rw [Text.items_node, List.filterMap_map]
    rfl
  have last : ((Text.lines []).map Prod.snd).filterMap Text.cleaned = [] := rfl
  have ends : (text ++ "\n").toList = text.toList ++ '\n' :: [] := String.toList_append
  rw [contents, contents, ends, Text.lines_append, List.filterMap_append, last, List.append_nil]

/-- Instructions with a line end between each two are written to a line each, but for the line end
behind the last one. -/
theorem items_linesText_code (code : List Instruction) :
    (items (linesText (code.map .code))).map (fun item => item.node) =
      (items (written Instruction.text code)).map fun item => item.node := by
  cases code with
  | nil => rfl
  | cons first rest =>
    have some : (first :: rest).map Line.code ≠ [] := List.cons_ne_nil _ _
    have same : written Instruction.text (first :: rest) =
        linesText ((first :: rest).map .code) ++ "\n" := by
      rw [← String.toList_inj, toList_linesText some, written, String.toList_join, Text.listing,
        List.map_map, List.flatMap_map, List.flatMap_map]
      exact List.flatMap_congr fun instruction _ => String.toList_append
    rw [same, items_lineEnd]

/-- Legal instructions are read back from a line each, with the spans of their lines. -/
theorem readProgram_written (legal : ∀ instruction ∈ code, instruction.Legal) :
    readProgram (written Instruction.text code) = .ok (placed Instruction.text "" code) := by
  have nodes : (placed Instruction.text "" code).map (fun item => item.node) = code :=
    Text.map_node_placed ""
  have whole (instruction : Instruction) (member : instruction ∈ code) :=
    (cleaned_text (legal instruction member).readable).2
  rw [readProgram, Text.items_written (fun instruction member => (legal instruction member).legible)
    whole, mapM_eq_ok, List.forall₂_map_left_iff, List.forall₂_same]
  intro item member
  have known : item.node ∈ code := by
    rw [← nodes]
    exact List.mem_map_of_mem member
  rw [(legal item.node known).read_text]

/-- The printed instructions of an assembled program, one to a line, are assembled to the same words
and symbols, with a line end behind the last line or without. -/
theorem assemble_printed {source : String} {program : Program}
    (assembled : assemble source = .ok program) :
    ∃ nodes, readProgram source = .ok nodes ∧
      assemble (written Instruction.text (instructionsOf nodes)) = .ok program ∧
      assemble (linesText ((instructionsOf nodes).map .code)) = .ok program := by
  obtain ⟨nodes, read, encoded⟩ := bind_eq_ok.mp assembled
  have again := readProgram_written (legal_of_assembled read encoded)
  have same : instructionsOf (placed Instruction.text "" (instructionsOf nodes)) =
      instructionsOf nodes := Text.map_node_placed ""
  have alike := assembleInstructions_alike same
  rw [encoded] at alike
  have ended : assemble (written Instruction.text (instructionsOf nodes)) = .ok program := by
    refine bind_eq_ok.mpr ⟨_, again, ?_⟩
    generalize assembleInstructions (placed Instruction.text "" (instructionsOf nodes)) = outcome
      at alike ⊢
    obtain ⟨rfl⟩ := alike
    rfl
  have unended := assemble_alike (items_linesText_code (instructionsOf nodes))
  rw [ended] at unended
  refine ⟨nodes, read, ended, ?_⟩
  generalize assemble (linesText ((instructionsOf nodes).map .code)) = outcome at unended ⊢
  obtain ⟨rfl⟩ := unended
  rfl

/-- A program with white space inside its instructions, empty fields, zeros in front of a number and
no line end behind the last line. -/
def loose : String :=
  "\t@007 // seven\r\n(L)\n=D+\u00a0M;\n  MD A = D - 1 ; \n\n@L\n 0; J M P//"

/-- The odd spellings are accepted, and printed with nothing odd they are the same program. -/
theorem loose_printed : ∃ program, assemble loose = .ok program ∧
    assemble "@7\n(L)\nD+M\nMDA=D-1\n@L\n0;JMP\n" = .ok program := by
  let code : List Instruction := [.address 7, .label "L", .compute "" "D+M" "",
    .compute "MDA" "D-1" "", .symbol "L", .compute "" "0" "JMP"]
  have read : (readProgram loose).map instructionsOf = .ok code := by decide +kernel
  cases own : readProgram loose with
  | error fault =>
    rw [own] at read
    contradiction
  | ok nodes =>
    rw [own] at read
    have same : instructionsOf nodes = code := Except.ok.inj read
    have able : Assemblable (instructionsOf nodes) := by
      rw [same]
      exact ⟨by decide, by decide, by decide, all_isEncodable.mp (by decide)⟩
    have small (value : Nat) (member : .address value ∈ instructionsOf nodes) :
        value < 65536 := by
      rw [same] at member
      simp only [code, List.mem_cons, Instruction.address.injEq, reduceCtorEq, List.not_mem_nil,
        or_false] at member
      omega
    obtain ⟨program, encoded⟩ := (assembleInstructions_spec small).1.mpr able
    have assembled : assemble loose = .ok program := bind_eq_ok.mpr ⟨nodes, own, encoded⟩
    obtain ⟨others, again, printed, -⟩ := assemble_printed assembled
    obtain rfl := Except.ok.inj (own.symm.trans again)
    rw [same] at printed
    exact ⟨program, assembled, printed⟩

end Programs

end JackToolchain.Assembly
