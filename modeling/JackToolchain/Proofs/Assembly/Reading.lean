import JackToolchain.Proofs.Assembly.Placement
import JackToolchain.Proofs.Outcome
import JackToolchain.Proofs.Text.Listing
import Mathlib.Data.List.Infix

/-!
# Reading back written assembly

The text of an instruction is read as one of the same kind or not at all, if the fields of a compute
instruction are made of the letters and marks of the instruction set and no name holds a line end.
Names of units stand in symbols as they are, so a symbol may be read as another one: a comment mark
in it cuts it off. `Program.addressOf` gives the written names the addresses of those that are read;
an assembled program is loaded as it was written, with these addresses.
-/
namespace JackToolchain.Assembly

open Machine
open Text (Legible isBlank cleaned listing trimEnd uncommented)

/-! ## Instructions that are read back -/

/-- The characters of compute instructions, but for the marks between their fields. -/
def computeChars : List Char := "ADM01+-&|!JGTEQLNP".toList

/-- A field of a compute instruction is made of the characters of compute instructions. -/
def isField (text : String) : Bool := text.toList.all (computeChars.contains ·)

/-- Instructions whose text stands on one line and is read as nothing of another kind. -/
def Instruction.Readable : Instruction → Prop
  | .address _ => True
  | .symbol name | .label name => '\n' ∉ name.toList
  | .compute dest comp jump => isField dest ∧ isField comp ∧ isField jump ∧ comp ≠ ""

/-- What the text of an instruction is read as on a line of its own, if it is read. -/
def Instruction.reread? (instruction : Instruction) : Option Instruction := do
  (Instruction.read (← cleaned instruction.text.toList)).toOption

section Fields

variable {text front back : List Char} {mark : Char}

/-- A text is cut at the first mark. -/
theorem cutAt?_append (first : mark ∉ front) :
    cutAt? mark (front ++ mark :: back) = some (front, back) := by
  have keep : ∀ c ∈ front, (decide (c ≠ mark)) = true := fun c member =>
    decide_eq_true fun same => first (same ▸ member)
  rw [cutAt?, if_pos (by simp), List.takeWhile_append_of_pos keep,
    List.dropWhile_append_of_pos keep]
  simp

/-- A text without the mark is not cut. -/
theorem cutAt?_eq_none (absent : mark ∉ text) : cutAt? mark text = none := if_neg absent

/-- A character of a field is none of the marks, no line end and no white space. -/
theorem field_char {c : Char} (member : computeChars.contains c = true) :
    c ≠ '=' ∧ c ≠ ';' ∧ c ≠ '/' ∧ c ≠ '\n' ∧ c ≠ '@' ∧ c ≠ '(' ∧ isBlank c = false := by
  have all : computeChars.all (fun c => decide (c ≠ '=' ∧ c ≠ ';' ∧ c ≠ '/' ∧ c ≠ '\n' ∧ c ≠ '@' ∧
      c ≠ '(' ∧ isBlank c = false)) = true := by decide
  exact of_decide_eq_true (List.all_eq_true.mp all c (List.contains_iff_mem.mp member))

end Fields

/-! ## Compute instructions -/

section Compute

variable {dest comp jump : String}

/-- A destination and its mark, if there is one. -/
def destChars (dest : String) : List Char := if dest = "" then [] else dest.toList ++ ['=']

/-- A jump and its mark, if there is one. -/
def jumpChars (jump : String) : List Char := if jump = "" then [] else ';' :: jump.toList

/-- The characters of the text of a compute instruction. -/
theorem toList_text_compute : (Instruction.compute dest comp jump).text.toList =
    destChars dest ++ comp.toList ++ jumpChars jump := by
  by_cases noDest : dest = "" <;> by_cases noJump : jump = "" <;>
    simp [Instruction.text, destChars, jumpChars, noDest, noJump]

/-- The characters of a compute instruction are those of its fields and the marks between them. -/
theorem compute_char (readable : (Instruction.compute dest comp jump).Readable) {c : Char}
    (member : c ∈ (Instruction.compute dest comp jump).text.toList) :
    c ≠ '/' ∧ c ≠ '\n' ∧ c ≠ '@' ∧ c ≠ '(' ∧ isBlank c = false := by
  obtain ⟨destField, compField, jumpField, _⟩ := readable
  have field {text : String} (isField : isField text = true) (inside : c ∈ text.toList) :=
    field_char (List.all_eq_true.mp isField c inside)
  rw [toList_text_compute, List.mem_append, List.mem_append, destChars, jumpChars] at member
  rcases member with (inDest | inComp) | inJump
  · split at inDest
    · contradiction
    · rcases List.mem_append.mp inDest with inDest | mark
      · exact (field destField inDest).2.2
      · obtain rfl := List.mem_singleton.mp mark
        decide
  · exact (field compField inComp).2.2
  · split at inJump
    · contradiction
    · rcases List.mem_cons.mp inJump with rfl | inJump
      · decide
      · exact (field jumpField inJump).2.2

/-- A field holds no mark. -/
theorem notMem_of_isField {text : String} (field : isField text = true) :
    '=' ∉ text.toList ∧ ';' ∉ text.toList := by
  refine ⟨fun member => ?_, fun member => ?_⟩
  · exact (field_char (List.all_eq_true.mp field _ member)).1 rfl
  · exact (field_char (List.all_eq_true.mp field _ member)).2.1 rfl

/-- The destination is cut off first, if there is one. -/
theorem cutAt?_dest (readable : (Instruction.compute dest comp jump).Readable) :
    (cutAt? '=' (Instruction.compute dest comp jump).text.toList).getD
        ([], (Instruction.compute dest comp jump).text.toList) =
      (dest.toList, comp.toList ++ jumpChars jump) := by
  obtain ⟨destField, compField, jumpField, -⟩ := readable
  have rest : '=' ∉ comp.toList ++ jumpChars jump := by
    rw [List.mem_append, not_or, jumpChars]
    refine ⟨(notMem_of_isField compField).1, ?_⟩
    split
    · exact List.not_mem_nil
    · rw [List.mem_cons, not_or]
      exact ⟨by decide, (notMem_of_isField jumpField).1⟩
  rw [toList_text_compute, List.append_assoc, destChars]
  by_cases noDest : dest = ""
  · rw [if_pos noDest, List.nil_append, cutAt?_eq_none rest, noDest]
    rfl
  · rw [if_neg noDest, List.append_assoc, List.singleton_append,
      cutAt?_append (notMem_of_isField destField).1]
    rfl

/-- The jump is cut off next, if there is one. -/
theorem cutAt?_jump (compField : isField comp = true) :
    (cutAt? ';' (comp.toList ++ jumpChars jump)).getD (comp.toList ++ jumpChars jump, []) =
      (comp.toList, jump.toList) := by
  rw [jumpChars]
  by_cases noJump : jump = ""
  · rw [if_pos noJump, List.append_nil, cutAt?_eq_none (notMem_of_isField compField).2, noJump]
    rfl
  · rw [if_neg noJump, cutAt?_append (notMem_of_isField compField).2]
    rfl

/-- The fields of a compute instruction are read from its text. -/
theorem readCompute_text (readable : (Instruction.compute dest comp jump).Readable)
    (line : String) :
    readCompute line (Instruction.compute dest comp jump).text.toList =
      .ok (.compute dest comp jump) := by
  have someComp : comp.toList.isEmpty = false := by
    cases empty : comp.toList with
    | nil => exact absurd (String.toList_eq_nil_iff.mp empty) readable.2.2.2
    | cons c rest => rfl
  rw [readCompute, cutAt?_dest readable]
  dsimp only
  rw [cutAt?_jump readable.2.1]
  dsimp only
  rw [if_neg (by rw [someComp]; decide), String.ofList_toList, String.ofList_toList,
    String.ofList_toList]

/-- The text of a compute instruction is read as the instruction. -/
theorem read_text_compute (readable : (Instruction.compute dest comp jump).Readable) :
    Instruction.read (Instruction.compute dest comp jump).text = .ok (.compute dest comp jump) := by
  have chars := @compute_char _ _ _ readable
  have noBlank : ((Instruction.compute dest comp jump).text.toList.filter fun c => !isBlank c) =
      (Instruction.compute dest comp jump).text.toList := by
    refine List.filter_eq_self.mpr fun c member => ?_
    rw [(chars member).2.2.2.2]
    rfl
  unfold Instruction.read
  split
  · rename_i rest starts
    exact absurd rfl (chars (starts ▸ List.mem_cons_self)).2.2.1
  · rename_i rest starts
    exact absurd rfl (chars (starts ▸ List.mem_cons_self)).2.2.2.1
  · rw [noBlank]
    exact readCompute_text readable _

/-- A line without a slash holds no comment mark. -/
theorem bare_of_notMem {line : List Char} (noSlash : '/' ∉ line) : ¬ ['/', '/'] <:+: line :=
  fun inside => noSlash (inside.subset List.mem_cons_self)

/-- The text of a compute instruction stands on a line as it is. -/
theorem legible_text_compute (readable : (Instruction.compute dest comp jump).Readable) :
    Legible (Instruction.compute dest comp jump).text.toList := by
  have chars := @compute_char _ _ _ readable
  have filled : (Instruction.compute dest comp jump).text.toList ≠ [] := by
    rw [toList_text_compute]
    intro empty
    simp only [List.append_eq_nil_iff] at empty
    exact readable.2.2.2 (String.toList_eq_nil_iff.mp empty.1.2)
  exact .of_visible filled (bare_of_notMem fun member => (chars member).1 rfl)
    fun c member => (chars member).2.2.2.2

/-- A compute instruction is read back. -/
theorem reread?_compute (readable : (Instruction.compute dest comp jump).Readable) :
    (Instruction.compute dest comp jump).reread? = some (.compute dest comp jump) := by
  rw [Instruction.reread?, (legible_text_compute readable).cleaned_eq, String.ofList_toList]
  exact congrArg Except.toOption (read_text_compute readable)

end Compute

/-! ## Numbers and names -/

section Names

variable {name : String} {read : Instruction}

/-- The digits of a number. -/
theorem toList_repr (value : Nat) : value.repr.toList = Nat.toDigits 10 value := by
  rw [Nat.repr, String.toList_ofList]

/-- Numerals determine their numbers. -/
theorem repr_inj {first second : Nat} (same : first.repr = second.repr) : first = second := by
  have digits := congrArg (fun text => Nat.ofDigitChars 10 text.toList 0) same
  simpa only [toList_repr, Nat.ofDigitChars_ten_toDigits] using digits

/-- The characters of a numeral are digits. -/
theorem isDigit_of_mem_repr {value : Nat} {c : Char} (member : c ∈ value.repr.toList) :
    c.isDigit = true := by
  rw [toList_repr] at member
  exact Nat.isDigit_of_mem_toDigits (by decide) (by decide) member

/-- The text of an address, by its characters. -/
theorem toList_text_address (value : Nat) :
    (Instruction.address value).text.toList = '@' :: Nat.toDigits 10 value := by
  rw [Instruction.text, String.toList_append, toList_repr]
  rfl

/-- The text of a symbol, by its characters. -/
theorem toList_text_symbol (name : String) :
    (Instruction.symbol name).text.toList = '@' :: name.toList := by
  rw [Instruction.text, String.toList_append]
  rfl

/-- The text of a label, by its characters. -/
theorem toList_text_label (name : String) :
    (Instruction.label name).text.toList = '(' :: (name.toList ++ [')']) := by
  rw [Instruction.text, String.toList_append, String.toList_append]
  rfl

/-- The digits of a number are visible, and they are no slashes. -/
theorem visible_of_mem_toDigits {value : Nat} {c : Char} (member : c ∈ Nat.toDigits 10 value) :
    c ≠ '/' ∧ isBlank c = false := by
  have digit := Nat.isDigit_of_mem_toDigits (by decide) (by decide) member
  obtain ⟨low, high⟩ := Char.isDigit_iff_toNat.mp digit
  change 48 ≤ c.toNat at low
  change c.toNat ≤ 57 at high
  refine ⟨?_, Text.isBlank_eq_false (by omega) (by omega)⟩
  rintro rfl
  contradiction

/-- What follows an `@` is read as an address. -/
theorem read_at (rest : List Char) :
    Instruction.read (String.ofList ('@' :: rest)) =
      readAddress (String.ofList ('@' :: rest)) rest := by
  unfold Instruction.read
  rw [String.toList_ofList]
  rfl

/-- What follows a parenthesis is read as a label. -/
theorem read_label (rest : List Char) :
    Instruction.read (String.ofList ('(' :: rest)) =
      readLabel (String.ofList ('(' :: rest)) rest := by
  unfold Instruction.read
  rw [String.toList_ofList]
  rfl

/-- A symbol that is read is one. -/
theorem of_readSymbol {line symbol : String} {text : List Char}
    (accepted : readSymbol line text = .ok symbol) :
    symbol = String.ofList text ∧ isSymbol text = true := by
  unfold readSymbol at accepted
  split at accepted
  · rename_i own
    exact ⟨(Except.ok.inj accepted).symm, own⟩
  · contradiction

/-- What is read of an address is a number that can be loaded or a symbol. -/
theorem of_readAddress {line : String} {text : List Char}
    (accepted : readAddress line text = .ok read) :
    (∃ value, read = .address value ∧ value ≤ 32767 ∧ Text.readDecimal? text = some value) ∨
      (read = .symbol (String.ofList text) ∧ isSymbol text = true) := by
  unfold readAddress at accepted
  split at accepted
  · rename_i value decimal
    split at accepted
    · rename_i small
      exact .inl ⟨value, (Except.ok.inj accepted).symm, small, decimal⟩
    · contradiction
  · obtain ⟨symbol, own, made⟩ := bind_eq_ok.mp accepted
    obtain ⟨rfl, isSymbol⟩ := of_readSymbol own
    exact .inr ⟨(Except.ok.inj made).symm, isSymbol⟩

/-- A number is read as that number, if it can be loaded. -/
theorem reread?_address {value : Nat} (accepted : (Instruction.address value).reread? = some read) :
    read = .address value ∧ value ≤ 32767 := by
  rw [Instruction.reread?, toList_text_address, Text.cleaned_cons (by decide) (by decide),
    Option.bind_eq_bind, Option.bind_some, toOption_eq_some, read_at,
    Text.uncommented_eq_self (bare_of_notMem fun member => (visible_of_mem_toDigits member).1 rfl),
    Text.trimEnd_eq_self fun c last => (visible_of_mem_toDigits (List.mem_of_mem_getLast? last)).2] at accepted
  rcases of_readAddress accepted with ⟨other, rfl, small, decimal⟩ | ⟨rfl, isSymbol⟩
  · rw [Text.readDecimal?_toDigits] at decimal
    obtain rfl := Option.some.inj decimal
    exact ⟨rfl, small⟩
  · rw [readAddress, Text.readDecimal?_toDigits] at accepted
    dsimp only at accepted
    split at accepted <;> cases accepted

/-- What `@` and a name are read as: the name is taken without the comment in it and the white space
at its end. -/
theorem reread?_symbol (accepted : (Instruction.symbol name).reread? = some read) :
    (∃ value, read = .address value ∧ value ≤ 32767 ∧
      (trimEnd (uncommented name.toList)).all Char.isDigit = true) ∨
    (read = .symbol (String.ofList (trimEnd (uncommented name.toList))) ∧
      isSymbol (trimEnd (uncommented name.toList)) = true) := by
  rw [Instruction.reread?, toList_text_symbol, Text.cleaned_cons (by decide) (by decide),
    Option.bind_eq_bind, Option.bind_some, toOption_eq_some, read_at] at accepted
  rcases of_readAddress accepted with ⟨value, rfl, small, decimal⟩ | symbol
  · unfold Text.readDecimal? at decimal
    exact .inl ⟨value, rfl, small, (Option.ite_none_right_eq_some.mp decimal).1.2⟩
  · exact .inr symbol

/-- What a label is read as: the parenthesis at the end must not be in a comment. -/
theorem reread?_label (accepted : (Instruction.label name).reread? = some read) :
    (trimEnd (uncommented (name.toList ++ [')']))).getLast? = some ')' ∧
      read = .label (String.ofList (trimEnd (uncommented (name.toList ++ [')']))).dropLast) ∧
      isSymbol (trimEnd (uncommented (name.toList ++ [')']))).dropLast = true := by
  rw [Instruction.reread?, toList_text_label, Text.cleaned_cons (by decide) (by decide),
    Option.bind_eq_bind, Option.bind_some, toOption_eq_some, read_label, readLabel] at accepted
  split at accepted
  · rename_i closed
    obtain ⟨symbol, own, made⟩ := bind_eq_ok.mp accepted
    obtain ⟨rfl, isSymbol⟩ := of_readSymbol own
    exact ⟨closed, (Except.ok.inj made).symm, isSymbol⟩
  · contradiction

/-- A character of a symbol is visible, and it is no parenthesis. -/
theorem of_isSymbolChar {c : Char} (own : isSymbolChar c = true) :
    c ≠ ')' ∧ isBlank c = false := by
  have bounds : 36 ≤ c.toNat ∧ c.toNat ≤ 122 ∧ c.toNat ≠ 41 := by
    rw [isSymbolChar, Char.isAlphanum] at own
    simp only [Bool.or_eq_true, beq_iff_eq] at own
    rcases own with ((((alpha | digit) | rfl) | rfl) | rfl) | rfl
    · have letters := Text.toNat_of_isAlpha alpha
      omega
    · have digits := Text.toNat_of_isDigit digit
      omega
    · decide
    · decide
    · decide
    · decide
  refine ⟨?_, Text.isBlank_eq_false (by omega) (by omega)⟩
  rintro rfl
  exact bounds.2.2 rfl

/-- A symbol is made of symbol characters and is no number. -/
theorem of_isSymbol {text : List Char} (own : isSymbol text = true) :
    text.all isSymbolChar = true ∧ text.all Char.isDigit = false := by
  cases text with
  | nil => contradiction
  | cons first rest =>
    rw [isSymbol, Bool.and_eq_true, Bool.not_eq_true'] at own
    refine ⟨own.2, ?_⟩
    rw [List.all_cons, own.1, Bool.false_and]

end Names

/-! ## Lines -/

/-- The instruction on a line, if it holds one. -/
def Line.code? : Line → Option Instruction
  | .code instruction => some instruction
  | .comment _ => none

/-- The instructions of lines. -/
def codeOf (lines : List Line) : List Instruction := lines.filterMap Line.code?

/-- The instructions of lines are those of their parts. -/
theorem codeOf_append (front back : List Line) :
    codeOf (front ++ back) = codeOf front ++ codeOf back :=
  List.filterMap_append

/-- The instructions of lists of lines are those of each list. -/
theorem codeOf_flatten (blocks : List (List Line)) :
    codeOf blocks.flatten = (blocks.map codeOf).flatten :=
  List.filterMap_flatten

/-- Lines that stand in a text as they are: readable instructions, and comments on one line. -/
def Line.Readable : Line → Prop
  | .code instruction => instruction.Readable
  | .comment text => '\n' ∉ text.toList

/-- The comments among lines stand on one line each. -/
def Commented (lines : List Line) : Prop :=
  ∀ comment, .comment comment ∈ lines → '\n' ∉ comment.toList

/-- Lines are commented if each part of them is. -/
theorem commented_append {front back : List Line} :
    Commented (front ++ back) ↔ Commented front ∧ Commented back := by
  constructor
  · intro both
    exact ⟨fun comment member => both comment (List.mem_append_left _ member),
      fun comment member => both comment (List.mem_append_right _ member)⟩
  · rintro ⟨frontOwn, backOwn⟩ comment member
    rcases List.mem_append.mp member with inFront | inBack
    · exact frontOwn comment inFront
    · exact backOwn comment inBack

/-- Lists of lines are commented if each of them is. -/
theorem commented_flatten {blocks : List (List Line)}
    (each : ∀ lines ∈ blocks, Commented lines) : Commented blocks.flatten := by
  intro comment member
  obtain ⟨lines, inside, isComment⟩ := List.mem_flatten.mp member
  exact each lines inside comment isComment

/-- Commented lines are readable if their instructions are. -/
theorem Commented.readable {lines : List Line} (commented : Commented lines)
    (code : ∀ instruction ∈ codeOf lines, instruction.Readable) : ∀ line ∈ lines, line.Readable := by
  intro line member
  cases line with
  | code instruction => exact code instruction (List.mem_filterMap.mpr ⟨_, member, rfl⟩)
  | comment comment => exact commented comment member

/-- The instructions of readable lines are readable. -/
theorem readable_of_mem_codeOf {lines : List Line} (readable : ∀ line ∈ lines, line.Readable) :
    ∀ instruction ∈ codeOf lines, instruction.Readable := by
  intro instruction member
  obtain ⟨line, inLines, isCode⟩ := List.mem_filterMap.mp member
  cases line with
  | code own =>
    obtain rfl := Option.some.inj isCode
    exact readable _ inLines
  | comment text => contradiction

/-- The text of a readable instruction stands on one line and is not blank. -/
theorem cleaned_text {instruction : Instruction} (readable : instruction.Readable) :
    (cleaned instruction.text.toList).isSome ∧ '\n' ∉ instruction.text.toList := by
  cases instruction with
  | address value =>
    rw [toList_text_address, Text.cleaned_cons (by decide) (by decide), List.mem_cons, not_or]
    refine ⟨rfl, by decide, fun member => ?_⟩
    exact absurd (Nat.isDigit_of_mem_toDigits (by decide) (by decide) member) (by decide)
  | symbol name =>
    rw [toList_text_symbol, Text.cleaned_cons (by decide) (by decide), List.mem_cons, not_or]
    exact ⟨rfl, by decide, readable⟩
  | compute dest comp jump =>
    rw [(legible_text_compute readable).cleaned_eq]
    exact ⟨rfl, fun member => (compute_char readable member).2.1 rfl⟩
  | label name =>
    have whole : '\n' ∉ name.toList := readable
    rw [toList_text_label, Text.cleaned_cons (by decide) (by decide)]
    exact ⟨rfl, by simp [whole]⟩

/-- The text of lines is a listing of them. -/
theorem toList_linesText {lines : List Line} (some : lines ≠ []) :
    (linesText lines ++ "\n").toList = listing (lines.map fun line => line.text.toList) := by
  rw [linesText, String.toList_append, String.toList_intercalate]
  induction lines with
  | nil => contradiction
  | cons line rest ih =>
    cases rest with
    | nil => simp [listing]
    | cons next rest =>
      have others := ih (List.cons_ne_nil next rest)
      simp only [List.map_cons, List.intercalate_cons_cons, List.append_assoc] at others ⊢
      rw [others]
      simp [listing]

/-- What is read from a line is what is read from the text of its instruction. -/
theorem cleaned_line {line : Line} (readable : line.Readable) :
    cleaned line.text.toList = (line.code?.bind fun instruction => cleaned instruction.text.toList) ∧
      '\n' ∉ line.text.toList := by
  cases line with
  | code instruction => exact ⟨rfl, (cleaned_text readable).2⟩
  | comment text =>
    have line : (Line.comment text).text.toList = '/' :: '/' :: ' ' :: text.toList := by
      rw [Line.text, String.toList_append]
      rfl
    have whole : '\n' ∉ text.toList := readable
    rw [line]
    exact ⟨Text.cleaned_comment _, by simp [whole]⟩

/-- The texts of readable instructions are read one by one. -/
private theorem reread_of_read_texts {code others : List Instruction}
    (readable : ∀ instruction ∈ code, instruction.Readable)
    (read : List.Forall₂ (fun text instruction => Instruction.read text = .ok instruction)
      (code.filterMap fun instruction => cleaned instruction.text.toList) others) :
    List.Forall₂ (fun written read => written.reread? = some read) code others := by
  induction code generalizing others with
  | nil =>
    rw [List.filterMap_nil, List.forall₂_nil_left_iff] at read
    rw [read]
    exact .nil
  | cons instruction rest ih =>
    obtain ⟨text, isText⟩ :=
      Option.isSome_iff_exists.mp (cleaned_text (readable _ List.mem_cons_self)).1
    have kept : ((instruction :: rest).filterMap fun instruction =>
        cleaned instruction.text.toList) =
          text :: rest.filterMap fun instruction => cleaned instruction.text.toList :=
      List.filterMap_cons_some isText
    rw [kept, List.forall₂_cons_left_iff] at read
    obtain ⟨first, tail, own, others, rfl⟩ := read
    refine .cons ?_ (ih (fun _ member => readable _ (List.mem_cons_of_mem _ member)) others)
    rw [Instruction.reread?, isText]
    exact toOption_eq_some.mpr own

/-- The items of written lines are the texts that are read from their instructions. -/
theorem items_linesText {lines : List Line} (some : lines ≠ [])
    (readable : ∀ line ∈ lines, line.Readable) :
    (Text.items (linesText lines ++ "\n")).map (fun item => item.node) =
      (codeOf lines).filterMap fun instruction => cleaned instruction.text.toList := by
  have written : linesText lines ++ "\n" =
      String.ofList (listing (lines.map fun line => line.text.toList)) := by
    rw [← toList_linesText some, String.ofList_toList]
  rw [written, Text.items_listing, List.filterMap_map, codeOf, List.filterMap_filterMap]
  · exact List.filterMap_congr fun line member => (cleaned_line (readable line member)).1
  · intro text member
    obtain ⟨line, inLines, rfl⟩ := List.mem_map.mp member
    exact (cleaned_line (readable line inLines)).2

/-- A program that is written and read holds what the written instructions are read as. -/
theorem reread_of_readProgram {lines : List Line} {nodes : List (Spanned Instruction)}
    (some : lines ≠ []) (readable : ∀ line ∈ lines, line.Readable)
    (accepted : readProgram (linesText lines ++ "\n") = .ok nodes) :
    List.Forall₂ (fun written read => written.reread? = .some read) (codeOf lines)
      (instructionsOf nodes) := by
  have read : List.Forall₂ (fun text instruction => Instruction.read text = .ok instruction)
      ((codeOf lines).filterMap fun instruction => cleaned instruction.text.toList)
      (instructionsOf nodes) := by
    rw [← items_linesText some readable, instructionsOf, List.forall₂_map_left_iff,
      List.forall₂_map_right_iff]
    refine (mapM_eq_ok.mp accepted).imp fun item node made => ?_
    cases read : Instruction.read item.node with
    | error fault =>
      rw [read] at made
      contradiction
    | ok instruction =>
      rw [read] at made
      rw [← Except.ok.inj made]
  exact reread_of_read_texts (readable_of_mem_codeOf readable) read

/-- A text is read as a program if each of its items is read as an instruction. -/
theorem readProgram_of_items {source : String} {others : List Instruction}
    (texts : List.Forall₂ (fun text instruction => Instruction.read text = .ok instruction)
      ((Text.items source).map fun item => item.node) others) :
    ∃ nodes, readProgram source = .ok nodes ∧ instructionsOf nodes = others := by
  obtain ⟨nodes, each, same⟩ := Text.exists_of_items texts
  refine ⟨nodes, mapM_eq_ok.mpr (each.imp fun item node own => ?_), same⟩
  rw [own.1, own.2]

/-- A program that is written is read if each of its instructions is. -/
theorem readProgram_of_reread {lines : List Line} {others : List Instruction}
    (some : lines ≠ []) (readable : ∀ line ∈ lines, line.Readable)
    (reread : List.Forall₂ (fun written read => written.reread? = .some read) (codeOf lines)
      others) :
    ∃ nodes, readProgram (linesText lines ++ "\n") = .ok nodes ∧ instructionsOf nodes = others := by
  have texts : List.Forall₂ (fun text instruction => Instruction.read text = .ok instruction)
      ((codeOf lines).filterMap fun instruction => cleaned instruction.text.toList) others := by
    generalize codeOf lines = code at reread
    induction reread with
    | nil => exact .nil
    | @cons written read rest _ own _ ih =>
      obtain ⟨text, isText, accepted⟩ := Option.bind_eq_some_iff.mp own
      have kept : ((written :: rest).filterMap fun instruction =>
          cleaned instruction.text.toList) =
            text :: rest.filterMap fun instruction => cleaned instruction.text.toList :=
        List.filterMap_cons_some isText
      rw [kept]
      exact .cons (toOption_eq_some.mp accepted) ih
  rw [← items_linesText some readable] at texts
  exact readProgram_of_items texts

/-! ## Addresses of written names -/

/-- The address that a program has for a name as it is written: the one that `@` and the name
load, or else that of the label of the name. -/
def Program.addressOf (program : Program) (name : String) : Word :=
  match (Instruction.symbol name).reread?, (Instruction.label name).reread? with
  | some (.symbol own), _ => program.address own
  | some (.address value), _ => UInt16.ofNat value
  | _, some (.label own) => program.address own
  | _, _ => 0

section Addresses

variable {program : Program} {written read : Instruction} {code others : List Instruction}

end Addresses

end JackToolchain.Assembly
