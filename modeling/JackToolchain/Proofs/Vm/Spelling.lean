import JackToolchain.Proofs.Assembly.Reading
import JackToolchain.Proofs.Outcome
import JackToolchain.Vm.Assembly
import JackToolchain.Vm.Reader

/-!
# Spelling of names and symbols

A command that is read has names of the language in it and numbers of 32 bits. The symbols that a
translation makes of such names, of numbers and of the name of a unit stand on one line of the
assembly text, provided that the name of the unit holds no line end.
-/
namespace JackToolchain.Vm

open Assembly (isSymbol isSymbolChar)
open Text (isBlank)

/-! ## Names -/

/-- A command whose names are names of the language and whose numbers fit in 32 bits. -/
def Command.Spelled : Command → Prop
  | .operate _ | .return => True
  | .push _ index | .pop _ index => index < Text.bound32
  | .label name | .goto name | .ifGoto name => isName name.toList = true
  | .function name count | .call name count => isName name.toList = true ∧ count < Text.bound32

instance (command : Command) : Decidable command.Spelled := by
  cases command <;> unfold Command.Spelled <;> infer_instance

section Names

variable {name scope unit : String}

/-- A character of a name is visible, and it is no slash. -/
theorem visible_of_isNameChar {c : Char} (own : isNameChar c = true) :
    c ≠ '/' ∧ c ≠ '\n' ∧ isBlank c = false := by
  have bounds : 46 ≤ c.toNat ∧ c.toNat ≤ 122 ∧ c.toNat ≠ 47 := by
    rw [isNameChar, Char.isAlphanum] at own
    simp only [Bool.or_eq_true, beq_iff_eq] at own
    rcases own with (((alpha | digit) | rfl) | rfl) | rfl
    · have letters := Text.toNat_of_isAlpha alpha
      omega
    · have digits := Text.toNat_of_isDigit digit
      omega
    · decide
    · decide
    · decide
  refine ⟨?_, ?_, Text.isBlank_eq_false (by omega) (by omega)⟩
  · rintro rfl
    exact bounds.2.2 rfl
  · rintro rfl
    exact absurd bounds.1 (by decide)

/-- A text of name characters stands on one line. -/
theorem whole_of_all_isNameChar {text : List Char} (own : text.all isNameChar = true) :
    '\n' ∉ text :=
  fun member => (visible_of_isNameChar (List.all_eq_true.mp own _ member)).2.1 rfl

/-- The characters of a name are name characters. -/
theorem all_isNameChar_of_isName {text : List Char} (named : isName text = true) :
    text ≠ [] ∧ text.all isNameChar = true ∧ text.all Char.isDigit = false := by
  cases text with
  | nil => contradiction
  | cons first rest =>
    rw [isName, Bool.and_eq_true, Bool.not_eq_true'] at named
    refine ⟨List.cons_ne_nil _ _, named.2, ?_⟩
    rw [List.all_cons, named.1, Bool.false_and]

/-- The digits of a number are name characters. -/
theorem all_isNameChar_repr (number : Nat) :
    number.repr.toList ≠ [] ∧ number.repr.toList.all isNameChar = true := by
  rw [Assembly.toList_repr]
  refine ⟨Nat.toDigits_ne_nil, List.all_eq_true.mpr fun c member => ?_⟩
  have digit := Nat.isDigit_of_mem_toDigits (by decide) (by decide) member
  simp [isNameChar, Char.isAlphanum, digit]

/-- A name stands on one line. -/
theorem whole_of_isName (named : isName name.toList = true) : '\n' ∉ name.toList :=
  whole_of_all_isNameChar (all_isNameChar_of_isName named).2.1

/-- A number stands on one line. -/
theorem whole_repr (number : Nat) : '\n' ∉ number.repr.toList :=
  whole_of_all_isNameChar (all_isNameChar_repr number).2

/-! ## Symbols -/

/-- The symbol of a static variable stands on one line. -/
theorem whole_staticSymbol (unitWhole : '\n' ∉ unit.toList) (index : Nat) :
    '\n' ∉ (staticSymbol unit index).toList := by
  have digits := whole_repr index
  rw [staticSymbol, String.toList_append, String.toList_append, List.mem_append, List.mem_append,
    not_or, not_or]
  exact ⟨⟨unitWhole, by decide⟩, digits⟩

/-- The symbol of a label stands on one line. -/
theorem whole_labelSymbol {numbering : Numbering} (scopeWhole : '\n' ∉ numbering.scope.toList)
    (nameWhole : '\n' ∉ name.toList) : '\n' ∉ (numbering.labelSymbol name).toList := by
  rw [Numbering.labelSymbol, String.toList_append, String.toList_append, List.mem_append,
    List.mem_append, not_or, not_or]
  exact ⟨⟨scopeWhole, by decide⟩, nameWhole⟩

/-! ## Symbols of the assembler -/

/-- A text of symbol characters stands on one line. -/
theorem whole_of_all_isSymbolChar {text : List Char} (own : text.all isSymbolChar = true) :
    '\n' ∉ text := fun member =>
  absurd (Assembly.of_isSymbolChar (List.all_eq_true.mp own _ member)).2 (by decide)

/-- The characters of names are symbol characters. -/
theorem all_isSymbolChar {text : List Char} (own : text.all isNameChar = true) :
    text.all isSymbolChar = true := by
  refine List.all_eq_true.mpr fun c member => ?_
  have char := List.all_eq_true.mp own c member
  simp only [isNameChar, isSymbolChar, Bool.or_eq_true] at char ⊢
  rcases char with ((letter | underscore) | dot) | colon
  · exact .inl (.inl (.inl (.inl letter)))
  · exact .inl (.inl (.inl (.inr underscore)))
  · exact .inl (.inl (.inr dot))
  · exact .inr colon

/-- A name is a symbol. -/
theorem isSymbol_of_isName {text : List Char} (named : isName text = true) :
    isSymbol text = true := by
  cases text with
  | nil => contradiction
  | cons first rest =>
    rw [isName, Bool.and_eq_true] at named
    rw [isSymbol, named.1, all_isSymbolChar named.2]
    rfl

/-- A symbol with symbol characters behind it is a symbol. -/
theorem isSymbol_append {front back : List Char} (frontSymbol : isSymbol front = true)
    (own : back.all isSymbolChar = true) : isSymbol (front ++ back) = true := by
  cases front with
  | nil => contradiction
  | cons first rest =>
    rw [isSymbol, Bool.and_eq_true] at frontSymbol
    rw [List.cons_append, isSymbol, frontSymbol.1, ← List.cons_append, List.all_append,
      frontSymbol.2, own]
    rfl

/-- The symbol of a static variable is one if the name of its unit is. -/
theorem isSymbol_staticSymbol (unitSymbol : isSymbol unit.toList = true) (index : Nat) :
    isSymbol (staticSymbol unit index).toList = true := by
  rw [staticSymbol, String.toList_append, String.toList_append, List.append_assoc]
  refine isSymbol_append unitSymbol ?_
  rw [List.all_append, all_isSymbolChar (all_isNameChar_repr index).2]
  rfl

/-- The symbol of a label is one if its scope is and its characters are symbol characters. -/
theorem isSymbol_labelSymbol {numbering : Numbering}
    (scopeSymbol : isSymbol numbering.scope.toList = true)
    (own : name.toList.all isSymbolChar = true) :
    isSymbol (numbering.labelSymbol name).toList = true := by
  rw [Numbering.labelSymbol, String.toList_append, String.toList_append, List.append_assoc]
  refine isSymbol_append scopeSymbol ?_
  rw [List.all_append, own]
  rfl

end Names

/-! ## Commands that are read -/

section Reading

variable {line : String} {operands : List (List Char)} {command : Command}

/-- A name that is read is a name of the language. -/
theorem isName_of_readName {word : List Char} {name : String}
    (read : readName line word = .ok name) : isName name.toList = true := by
  unfold readName at read
  split at read
  · rename_i named
    rw [← Except.ok.inj read, String.toList_ofList]
    exact named
  · contradiction

/-- A number that is read fits in 32 bits. -/
theorem lt_of_readIndex {word : List Char} {value : Nat}
    (read : readIndex line word = .ok value) : value < Text.bound32 := by
  unfold readIndex at read
  split at read
  · contradiction
  · split at read
    · rename_i small
      rwa [← Except.ok.inj read]
    · contradiction

/-- A command without operands is the one that is read. -/
private theorem eq_of_readPlain {wanted : Command}
    (read : readPlain wanted line operands = .ok command) : command = wanted := by
  unfold readPlain at read
  split at read
  · exact (Except.ok.inj read).symm
  · contradiction

/-- A command with a name that is read has a name of the language. -/
private theorem named_of_readNamed {make : String → Command}
    (read : readNamed make line operands = .ok command) :
    ∃ name, command = make name ∧ isName name.toList = true := by
  unfold readNamed at read
  split at read
  · obtain ⟨name, readName, made⟩ := bind_eq_ok.mp read
    exact ⟨name, (Except.ok.inj made).symm, isName_of_readName readName⟩
  · contradiction

/-- A command with a name and a count that is read has a name of the language and a count of
32 bits. -/
private theorem counted_of_readCounted {make : String → Nat → Command}
    (read : readCounted make line operands = .ok command) :
    ∃ name count, command = make name count ∧ isName name.toList = true ∧
      count < Text.bound32 := by
  unfold readCounted at read
  split at read
  · obtain ⟨name, readName, rest⟩ := bind_eq_ok.mp read
    obtain ⟨count, readCount, made⟩ := bind_eq_ok.mp rest
    exact ⟨name, count, (Except.ok.inj made).symm, isName_of_readName readName,
      lt_of_readIndex readCount⟩
  · contradiction

/-- A command with a segment and an index that is read has an index of 32 bits. -/
private theorem indexed_of_readAccess {make : Segment → Nat → Command}
    (read : readAccess make line operands = .ok command) :
    ∃ segment index, command = make segment index ∧ index < Text.bound32 := by
  unfold readAccess at read
  split at read
  · obtain ⟨segment, readSegment, rest⟩ := bind_eq_ok.mp read
    obtain ⟨index, readIndex, made⟩ := bind_eq_ok.mp rest
    exact ⟨segment, index, (Except.ok.inj made).symm, lt_of_readIndex readIndex⟩
  · contradiction

/-- A command that is read has names of the language and numbers of 32 bits. -/
theorem spelled_of_read (read : Command.read line = .ok command) : command.Spelled := by
  unfold Command.read Command.ofWords at read
  split at read
  · contradiction
  · dsimp only at read
    split at read
    · rw [eq_of_readPlain read]
      trivial
    · split at read
      · obtain ⟨segment, index, rfl, small⟩ := indexed_of_readAccess read
        exact small
      · obtain ⟨segment, index, rfl, small⟩ := indexed_of_readAccess read
        exact small
      · obtain ⟨name, rfl, named⟩ := named_of_readNamed read
        exact named
      · obtain ⟨name, rfl, named⟩ := named_of_readNamed read
        exact named
      · obtain ⟨name, rfl, named⟩ := named_of_readNamed read
        exact named
      · obtain ⟨name, count, rfl, own⟩ := counted_of_readCounted read
        exact own
      · obtain ⟨name, count, rfl, own⟩ := counted_of_readCounted read
        exact own
      · rw [eq_of_readPlain read]
        trivial
      · contradiction

/-- The commands of a program that is read have names of the language and numbers of 32 bits. -/
theorem spelled_of_readProgram {source : String} {commands : List (Spanned Command)}
    (read : readProgram source = .ok commands) :
    ∀ command ∈ commands, command.node.Spelled := by
  have each := mapM_eq_ok.mp read
  clear read
  generalize Text.items source = items at each
  induction each with
  | nil => exact fun command member => by contradiction
  | @cons item command _ _ made _ ih =>
    intro other member
    rcases List.mem_cons.mp member with rfl | later
    · cases readItem : Command.read item.node with
      | error fault =>
        rw [readItem] at made
        contradiction
      | ok own =>
        rw [readItem] at made
        rw [← Except.ok.inj made]
        exact spelled_of_read readItem
    · exact ih other later

end Reading

end JackToolchain.Vm
