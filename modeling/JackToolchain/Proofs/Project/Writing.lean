import JackToolchain.Project
import JackToolchain.Proofs.Assembly.Reading
import JackToolchain.Proofs.Text.Trimming

/-!
# Written files of settings

What a file of settings can choose, and the texts that write a choice: each setting stands once below
a header of its section, in any order, and between the settings there may be blank lines, comments,
other sections and keys that mean nothing. White space may stand around everything on a line.

The texts are described by what their lines hold, not by how a line is read.
-/
namespace JackToolchain.Project

open Files (Path)
open Text (Within isBlank)

/-! ## Choices -/

/-- The settings that a file can make. -/
inductive Setting where
  | name | source | output
  | bootstrap | comments
  | alloc | stringNew | stringAppend | multiply | divide
  | stackBase | tempBase | tempSize | entry
deriving DecidableEq

/-- The section and the key of a setting. -/
def Setting.place : Setting → String × String
  | .name => ("project", "name")
  | .source => ("project", "source")
  | .output => ("project", "output")
  | .bootstrap => ("build", "bootstrap")
  | .comments => ("build", "comments")
  | .alloc => ("runtime", "alloc")
  | .stringNew => ("runtime", "string_new")
  | .stringAppend => ("runtime", "string_append")
  | .multiply => ("runtime", "multiply")
  | .divide => ("runtime", "divide")
  | .stackBase => ("machine", "stack_base")
  | .tempBase => ("machine", "temp_base")
  | .tempSize => ("machine", "temp_size")
  | .entry => ("machine", "entry")

/-- The value of a setting. -/
inductive Value where
  | text (content : String)
  | flag (holds : Bool)
  | number (amount : Nat)

/-- A value that can be written. A text has to stand on a line, quotation marks at its ends would not
count, and numbers have 32 bits. -/
def Value.Writable : Value → Prop
  | .text content =>
    '\n' ∉ content.toList ∧ content.toList.head? ≠ some '"' ∧ content.toList.getLast? ≠ some '"'
  | .flag _ => True
  | .number amount => amount < Text.bound32

instance : DecidablePred Value.Writable
  | .text content => inferInstanceAs (Decidable ('\n' ∉ content.toList ∧
      content.toList.head? ≠ some '"' ∧ content.toList.getLast? ≠ some '"'))
  | .flag _ => inferInstanceAs (Decidable True)
  | .number amount => inferInstanceAs (Decidable (amount < Text.bound32))

/-- How a value is written: a text between quotation marks, a truth value as a word, and a number in
decimal digits with any underscores between them. -/
def Value.Written : Value → List Char → Prop
  | .text content, written => written = '"' :: content.toList ++ ['"']
  | .flag holds, written => written = (if holds then "true" else "false").toList
  | .number amount, written => written.filter (· ≠ '_') = Nat.toDigits 10 amount

instance : (value : Value) → (written : List Char) → Decidable (value.Written written)
  | .text content, written => inferInstanceAs (Decidable (written = '"' :: content.toList ++ ['"']))
  | .flag holds, written =>
    inferInstanceAs (Decidable (written = (if holds then "true" else "false").toList))
  | .number amount, written =>
    inferInstanceAs (Decidable (written.filter (· ≠ '_') = Nat.toDigits 10 amount))

/-- A value for each setting. -/
structure Choices where
  /-- The name of the project. -/
  name : String
  /-- The directory of the classes. -/
  source : String
  /-- Where the program goes. -/
  output : String
  /-- Whether the program starts with the bootstrap. -/
  bootstrap : Bool
  /-- Whether its blocks have comments. -/
  comments : Bool
  /-- The run-time library. -/
  runtime : Vm.RuntimeNames
  /-- The stack pointer at the start. -/
  stackBase : Nat
  /-- The first cell of the temp segment. -/
  tempBase : Nat
  /-- The number of temp cells. -/
  tempSize : Nat
  /-- The function that the bootstrap calls. -/
  entry : String

namespace Choices

/-- The value of a setting. -/
def value (choices : Choices) : Setting → Value
  | .name => .text choices.name
  | .source => .text choices.source
  | .output => .text choices.output
  | .bootstrap => .flag choices.bootstrap
  | .comments => .flag choices.comments
  | .alloc => .text choices.runtime.alloc
  | .stringNew => .text choices.runtime.stringNew
  | .stringAppend => .text choices.runtime.stringAppend
  | .multiply => .text choices.runtime.multiply
  | .divide => .text choices.runtime.divide
  | .stackBase => .number choices.stackBase
  | .tempBase => .number choices.tempBase
  | .tempSize => .number choices.tempSize
  | .entry => .text choices.entry

/-- Choices that can be written. A name, a directory or a path that is empty would not be a
choice. -/
structure Legal (choices : Choices) : Prop where
  /-- There is a name. -/
  name : choices.name ≠ ""
  /-- There is a directory of classes. -/
  source : choices.source ≠ ""
  /-- There is a place for the program. -/
  output : choices.output ≠ ""
  /-- Every value can be written. -/
  writable : ∀ setting, (choices.value setting).Writable

/-- How the classes are built; no setting changes the rest of the memory map. -/
def options (choices : Choices) : Options where
  layout :=
    { stackBase := choices.stackBase
      tempBase := choices.tempBase
      tempSize := choices.tempSize
      entry := choices.entry }
  runtime := choices.runtime
  bootstrap := choices.bootstrap
  comments := choices.comments

/-- The project that is chosen; its paths are seen from its root. -/
def project (choices : Choices) (root : Path) : Project where
  name := choices.name
  root := root
  source := root.join choices.source
  output := root.join choices.output
  options := choices.options

end Choices

/-! ## Lines -/

/-- What a line holds. -/
inductive Line where
  /-- Nothing, or a comment. -/
  | remark (content : List Char)
  /-- The header of a section. -/
  | header (name : String)
  /-- A key with a value. -/
  | entry (key : String) (value : List Char)

/-- How a line is written. A comment starts with a hash, the name of a section stands in brackets,
and the first equals sign stands behind a key, which may be in quotation marks. -/
inductive Line.Spelled : Line → List Char → Prop where
  | blank {text : List Char} (own : Within isBlank [] text) : (Line.remark []).Spelled text
  | comment {text rest : List Char} (own : Within isBlank ('#' :: rest) text) :
      (Line.remark ('#' :: rest)).Spelled text
  | header {name : String} {text inner : List Char} (own : Within isBlank ('[' :: inner ++ [']']) text)
      (named : Within isBlank name.toList inner) : (Line.header name).Spelled text
  | entry {key : String} {value text left quoted right : List Char}
      (own : Within isBlank (left ++ '=' :: right) text) (first : '=' ∉ left)
      (noRemark : left.head? ≠ some '#')
      (noHeader : left.head? = some '[' → right.getLast? ≠ some ']')
      (keyed : Within isBlank quoted left) (unquoted : Within (· == '"') key.toList quoted)
      (valued : Within isBlank value right) : (Line.entry key value).Spelled text

/-- The values that lines give to the key of a section, in order, below the header of a section. -/
def valuesOf (place : String × String) : String → List Line → List (List Char)
  | _, [] => []
  | «section», .remark _ :: rest => valuesOf place «section» rest
  | _, .header name :: rest => valuesOf place name rest
  | «section», .entry key value :: rest =>
    if («section», key) = place then value :: valuesOf place «section» rest
    else valuesOf place «section» rest

/-- A text that writes choices: it is made of lines, and each setting is written on one of them. Above
the first header no setting is made. -/
def Choices.WrittenIn (choices : Choices) (text : String) : Prop :=
  ∃ lines texts, text.toList = ['\n'].intercalate texts ∧ (∀ line ∈ texts, '\n' ∉ line) ∧
    List.Forall₂ Line.Spelled lines texts ∧
    ∀ setting : Setting, ∃ written, valuesOf setting.place "" lines = [written] ∧
      (choices.value setting).Written written

/-! ## The usual text -/

/-- A value as it is usually written. -/
def Value.spelling : Value → List Char
  | .text content => '"' :: content.toList ++ ['"']
  | .flag holds => (if holds then "true" else "false").toList
  | .number amount => Nat.toDigits 10 amount

/-- A line as it is usually written. -/
def Line.text : Line → List Char
  | .remark content => content
  | .header name => '[' :: name.toList ++ [']']
  | .entry key value => key.toList ++ ' ' :: '=' :: ' ' :: value

/-- The characters of keys that need no quotation marks. -/
def isKeyChar (c : Char) : Bool := c.isAlpha || c == '_'

/-- A text neither starts nor ends with white space. -/
def Tight (text : List Char) : Prop :=
  text.head?.any isBlank = false ∧ text.getLast?.any isBlank = false

instance : DecidablePred Tight := fun _ => inferInstanceAs (Decidable (_ ∧ _))

/-- A line that can be written as usual. -/
def Line.Plain : Line → Prop
  | .remark content => (content = [] ∨ content.head? = some '#') ∧ Tight content
  | .header name => Tight name.toList
  | .entry key value =>
    key.toList ≠ [] ∧ key.toList.all isKeyChar = true ∧ value ≠ [] ∧ Tight value

instance : DecidablePred Line.Plain
  | .remark content =>
    inferInstanceAs (Decidable ((content = [] ∨ content.head? = some '#') ∧ Tight content))
  | .header name => inferInstanceAs (Decidable (Tight name.toList))
  | .entry key value => inferInstanceAs (Decidable (key.toList ≠ [] ∧
      key.toList.all isKeyChar = true ∧ value ≠ [] ∧ Tight value))

/-- The line of a setting. -/
def Choices.line (choices : Choices) (setting : Setting) : Line :=
  .entry setting.place.2 (choices.value setting).spelling

/-- All settings below the headers of their sections. -/
def Choices.lines (choices : Choices) : List Line :=
  .header "project" :: [.name, .source, .output].map choices.line ++
    .header "build" :: [.bootstrap, .comments].map choices.line ++
    .header "runtime" ::
      [.alloc, .stringNew, .stringAppend, .multiply, .divide].map choices.line ++
    .header "machine" :: [.stackBase, .tempBase, .tempSize, .entry].map choices.line

/-- A character that means nothing else on a line. -/
structure Unmarked (c : Char) : Prop where
  /-- It does not end the key. -/
  noEquals : c ≠ '='
  /-- It does not start a comment. -/
  noHash : c ≠ '#'
  /-- It does not start a header. -/
  noBracket : c ≠ '['
  /-- It is no quotation mark. -/
  noQuote : c ≠ '"'
  /-- It is no white space. -/
  visible : isBlank c = false

section Plain

variable {choices : Choices} {line : Line} {text : List Char} {c : Char}

/-- A text without white space at its ends stands by itself. -/
theorem Tight.within (tight : Tight text) : Within isBlank text text :=
  .self ((Option.any_eq_false _ _).mp tight.1) ((Option.any_eq_false _ _).mp tight.2)

/-- A text without white space has none at its ends. -/
theorem tight_of_visible (visible : ∀ c ∈ text, isBlank c = false) : Tight text :=
  ⟨(Option.any_eq_false _ _).mpr fun c first => visible c (List.mem_of_mem_head? first),
    (Option.any_eq_false _ _).mpr fun c last => visible c (List.mem_of_mem_getLast? last)⟩

/-- A character of a key means nothing else. -/
theorem unmarked_of_isKeyChar (own : isKeyChar c = true) : Unmarked c := by
  rcases Bool.or_eq_true_iff.mp own with letter | mark
  · have range := Text.toNat_of_isAlpha letter
    have differ (mark : Char) (outside : ¬ (65 ≤ mark.toNat ∧ mark.toNat ≤ 90 ∨
        97 ≤ mark.toNat ∧ mark.toNat ≤ 122)) : c ≠ mark := fun same => outside (same ▸ range)
    exact ⟨differ '=' (by decide), differ '#' (by decide), differ '[' (by decide),
      differ '"' (by decide), Text.isBlank_eq_false (by omega) (by omega)⟩
  · obtain rfl := beq_iff_eq.mp mark
    exact ⟨by decide, by decide, by decide, by decide, rfl⟩

/-- White space may stand around a line. -/
theorem Line.Spelled.pad {front text back : List Char} (spelled : line.Spelled text)
    (own : ∀ c ∈ front, isBlank c = true) (others : ∀ c ∈ back, isBlank c = true) :
    line.Spelled (front ++ text ++ back) := by
  cases spelled with
  | blank within => exact .blank (within.pad own others)
  | comment within => exact .comment (within.pad own others)
  | header within named => exact .header (within.pad own others) named
  | entry within first noRemark noHeader keyed unquoted valued =>
    exact .entry (within.pad own others) first noRemark noHeader keyed unquoted valued

/-- A key and a value with an equals sign between them are a line of the key. -/
theorem spelled_entry {key : String} {value : List Char} (some : key.toList ≠ [])
    (own : key.toList.all isKeyChar = true) (filled : value ≠ []) (tight : Tight value) :
    (Line.entry key value).Spelled ((key.toList ++ [' ']) ++ '=' :: ' ' :: value) := by
  have plain (c : Char) (member : c ∈ key.toList) : Unmarked c :=
    unmarked_of_isKeyChar (List.all_eq_true.mp own c member)
  have start (c : Char) (first : c ∈ key.toList.head?) : Unmarked c :=
    plain c (List.mem_of_mem_head? first)
  have space : ∀ c ∈ [' '], isBlank c = true := fun c only => by
    rw [List.mem_singleton.mp only]
    rfl
  have front (back : List Char) : (key.toList ++ back).head? = key.toList.head? :=
    List.head?_append_of_ne_nil _ some
  have whole : Within isBlank ((key.toList ++ [' ']) ++ '=' :: ' ' :: value)
      ((key.toList ++ [' ']) ++ '=' :: ' ' :: value) := by
    refine .self (fun c first => ?_) fun c last => ?_
    · rw [List.append_assoc, front] at first
      exact (start c first).visible
    · rw [List.getLast?_append_cons, List.getLast?_cons_cons,
        List.getLast?_cons_of_ne_nil filled] at last
      exact tight.within.stop c last
  have first : '=' ∉ key.toList ++ [' '] := by
    intro member
    rcases List.mem_append.mp member with inside | last
    · exact (plain _ inside).noEquals rfl
    · exact absurd (List.mem_singleton.mp last) (by decide)
  have keyed : Within isBlank key.toList ([] ++ key.toList ++ [' ']) :=
    (tight_of_visible fun c member => (plain c member).visible).within.pad (by simp) space
  have unquoted : Within (· == '"') key.toList key.toList :=
    .self (fun c first => beq_false_of_ne (start c first).noQuote)
      fun c last => beq_false_of_ne (plain c (List.mem_of_mem_getLast? last)).noQuote
  have valued : Within isBlank value ([' '] ++ value ++ []) := tight.within.pad space (by simp)
  rw [List.append_nil] at valued
  refine .entry whole first ?_ ?_ keyed unquoted valued
  · rw [front]
    exact fun first => (start _ first).noHash rfl
  · rw [front]
    exact fun first => absurd rfl (start _ first).noBracket

/-- A line that can be written as usual is written so. -/
theorem Line.Plain.spelled (plain : line.Plain) : line.Spelled line.text := by
  cases line with
  | remark content =>
    obtain ⟨rfl | mark, tight⟩ := plain
    · exact .blank tight.within
    · obtain ⟨rest, rfl⟩ := List.head?_eq_some_iff.mp mark
      exact .comment tight.within
  | header name =>
    refine .header (.self (fun c first => ?_) fun c last => ?_) (Tight.within plain)
    · obtain rfl := Option.some.inj first
      rfl
    · obtain rfl := Option.some.inj (List.getLast?_concat.symm.trans last)
      rfl
  | entry key value =>
    obtain ⟨some, own, filled, tight⟩ := plain
    have spelled := spelled_entry some own filled tight
    rwa [List.append_assoc] at spelled

/-- A value is written as usual. -/
theorem Value.written_spelling (value : Value) : value.Written value.spelling := by
  cases value with
  | text content => rfl
  | flag holds => rfl
  | number amount =>
    refine List.filter_eq_self.mpr fun c member => decide_eq_true ?_
    rintro rfl
    exact absurd (Nat.isDigit_of_mem_toDigits (by decide) (by decide) member) (by decide)

/-- The usual text of a value is not empty and has no white space at its ends. -/
theorem Value.tight_spelling (value : Value) : value.spelling ≠ [] ∧ Tight value.spelling := by
  cases value with
  | text content =>
    refine ⟨List.cons_ne_nil _ _, rfl, ?_⟩
    rw [Value.spelling, List.getLast?_concat]
    rfl
  | flag holds => cases holds <;> decide
  | number amount =>
    exact ⟨Nat.toDigits_ne_nil,
      tight_of_visible fun c member => (Assembly.visible_of_mem_toDigits member).2⟩

/-- The usual text of a value that can be written holds no line end. -/
theorem Value.Writable.whole {value : Value} (own : value.Writable) : '\n' ∉ value.spelling := by
  cases value with
  | text content =>
    intro member
    rw [Value.spelling, List.mem_append, List.mem_cons] at member
    rcases member with (mark | inside) | mark
    · exact absurd mark (by decide)
    · exact own.1 inside
    · exact absurd (List.mem_singleton.mp mark) (by decide)
  | flag holds => cases holds <;> decide
  | number amount =>
    exact fun member =>
      absurd (Nat.isDigit_of_mem_toDigits (by decide) (by decide) member) (by decide)

/-- What holds of the headers and of the lines of all settings holds of all lines. -/
theorem forall_mem_lines {holds : Line → Prop}
    (headers : ∀ name ∈ ["project", "build", "runtime", "machine"], holds (.header name))
    (settings : ∀ setting, holds (choices.line setting)) : ∀ line ∈ choices.lines, holds line := by
  simp only [List.forall_mem_cons] at headers
  simp [Choices.lines, headers, settings]

/-- The settings stand on lines that can be written as usual. -/
theorem plain_of_mem_lines : ∀ line ∈ choices.lines, line.Plain := by
  refine forall_mem_lines (by decide) fun setting => ?_
  have key : setting.place.2.toList ≠ [] ∧ setting.place.2.toList.all isKeyChar = true := by
    cases setting <;> decide
  exact ⟨key.1, key.2, (choices.value setting).tight_spelling⟩

/-- No line of settings that can be written holds a line end. -/
theorem whole_of_mem_lines (legal : choices.Legal) : ∀ line ∈ choices.lines, '\n' ∉ line.text := by
  refine forall_mem_lines (by decide) fun setting => ?_
  have key : '\n' ∉ setting.place.2.toList := by cases setting <;> decide
  have value := (legal.writable setting).whole
  simp [Choices.line, Line.text, key, value]

/-- Each setting is on one line. -/
theorem valuesOf_lines (choices : Choices) (setting : Setting) :
    valuesOf setting.place "" choices.lines = [(choices.value setting).spelling] := by
  cases setting <;> rfl

/-- Choices that can be written are written by a text. -/
theorem Choices.Legal.exists_writtenIn (legal : choices.Legal) :
    ∃ text, choices.WrittenIn text := by
  refine ⟨String.ofList (['\n'].intercalate (choices.lines.map Line.text)), choices.lines,
    choices.lines.map Line.text, String.toList_ofList, ?_, ?_, fun setting =>
      ⟨_, valuesOf_lines choices setting, Value.written_spelling _⟩⟩
  · intro text member
    obtain ⟨line, inside, rfl⟩ := List.mem_map.mp member
    exact whole_of_mem_lines legal line inside
  · rw [List.forall₂_map_right_iff, List.forall₂_same]
    exact fun line member => (plain_of_mem_lines line member).spelled

end Plain

end JackToolchain.Project
