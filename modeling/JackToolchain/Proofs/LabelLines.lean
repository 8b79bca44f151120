import JackToolchain.Proofs.Vm.Bodies
import JackToolchain.Proofs.Vm.Translation

/-!
# Label lines of translations

The lines of a translated text that place labels are those of the landmarks of its units, so they
are different if the functions and labels of the units are told apart by their names. The labels
that a translation makes up for itself, the ends of comparisons and the places behind calls, are
placed in the code that refers to them.
-/
namespace JackToolchain

open Assembly (Instruction Line codeOf labelsOf linesText symbolsOf)
open Vm

/-! ## Labels of lines -/

/-- Whether a line stands in parentheses. -/
def inParentheses (line : List Char) : Bool :=
  line.head? = some '(' && line.getLast? = some ')'

/-- The lines of a text that place labels. -/
def labelLines (text : String) : List (List Char) :=
  ((Text.lines text.toList).map Prod.snd).filter inParentheses

/-- Of the texts of readable lines, those of labels stand in parentheses. -/
private theorem inParentheses_text {line : Line} (readable : line.Readable) :
    inParentheses line.text.toList = true ↔ ∃ name, line = .code (.label name) := by
  rw [inParentheses, Bool.and_eq_true, decide_eq_true_eq, decide_eq_true_eq]
  cases line with
  | comment text =>
    have start : (Line.comment text).text.toList.head? = some '/' := by
      rw [Line.text, String.toList_append]
      rfl
    simp [start]
  | code instruction =>
    cases instruction with
    | label name =>
      refine iff_of_true ?_ ⟨name, rfl⟩
      rw [Line.text, Assembly.toList_text_label, ← List.cons_append]
      exact ⟨rfl, List.getLast?_concat⟩
    | address value =>
      rw [Line.text, Assembly.toList_text_address]
      simp
    | symbol name =>
      rw [Line.text, Assembly.toList_text_symbol]
      simp
    | compute dest comp jump =>
      refine iff_of_false ?_ (by simp)
      rintro ⟨start, -⟩
      have member := List.mem_of_mem_head? (Option.mem_def.mpr start)
      exact (Assembly.compute_char readable member).2.2.2.1 rfl

/-- The label lines of a written text are those of its labels. -/
theorem labelLines_linesText {lines : List Line} (some : lines ≠ [])
    (readable : ∀ line ∈ lines, line.Readable) :
    labelLines (linesText lines ++ "\n") =
      (labelsOf (codeOf lines)).map fun name => (Instruction.label name).text.toList := by
  have whole : ∀ text ∈ lines.map fun line => line.text.toList, '\n' ∉ text :=
    List.forall_mem_map.mpr fun line member => (Assembly.cleaned_line (readable line member)).2
  rw [labelLines, Assembly.toList_linesText some, Text.lines_listing_whole whole,
    List.filter_append]
  refine (List.append_nil _).trans ?_
  clear some whole
  induction lines with
  | nil => rfl
  | cons line rest ih =>
    obtain ⟨own, others⟩ := List.forall_mem_cons.mp readable
    rw [List.map_cons]
    by_cases isLabel : ∃ name, line = .code (.label name)
    · rw [List.filter_cons_of_pos ((inParentheses_text own).mpr isLabel), ih others]
      obtain ⟨name, rfl⟩ := isLabel
      rfl
    · rw [List.filter_cons_of_neg (mt (inParentheses_text own).mp isLabel), ih others]
      cases line with
      | comment text => rfl
      | code instruction =>
        cases instruction with
        | label name => exact absurd ⟨name, rfl⟩ isLabel
        | _ => rfl

/-! ## Labels that are made up -/

/-- Symbols of ends of comparisons and of places behind calls. -/
def IsGenerated (name : String) : Prop :=
  ∃ scope number, name = (Landmark.comparison scope number).symbol ∨
    name = (Landmark.call scope number).symbol

/-- Instructions that place the labels made up by a translation to which they refer. -/
def PlacesGenerated (code : List Instruction) : Prop :=
  ∀ name, IsGenerated name → .symbol name ∈ code → .label name ∈ code

section Generated

variable {layout : Layout} {unit : String} {numbering : Numbering} {command : Command}
variable {block : List Instruction} {name : String}

/-- A symbol that is made up has more than one mark between its parts. -/
theorem IsGenerated.marks (generated : IsGenerated name) : 1 < name.toList.count '$' := by
  have marked (scope kind digits : String) :
      1 < ("$".intercalate [scope, kind, digits]).toList.count '$' := by
    have text : ("$".intercalate [scope, kind, digits]).toList =
        scope.toList ++ '$' :: (kind.toList ++ '$' :: digits.toList) := by
      simp
    rw [text, List.count_append, List.count_cons_self, List.count_append, List.count_cons_self]
    omega
  obtain ⟨scope, number, rfl | rfl⟩ := generated
  · exact marked scope "cmp" number.repr
  · exact marked scope "ret" number.repr

/-- A symbol without marks is not made up. -/
theorem not_isGenerated (plain : '$' ∉ name.toList) : ¬ IsGenerated name := fun generated => by
  have marks := generated.marks
  rw [List.count_eq_zero.mpr plain] at marks
  contradiction

/-- The symbol of a label of the program is not made up. -/
theorem not_isGenerated_labelSymbol (scopePlain : '$' ∉ numbering.scope.toList)
    (plain : '$' ∉ name.toList) : ¬ IsGenerated (numbering.labelSymbol name) := fun generated => by
  have marks := generated.marks
  rw [Numbering.labelSymbol, String.toList_append, String.toList_append, List.count_append,
    List.count_append, List.count_eq_zero.mpr plain, List.count_eq_zero.mpr scopePlain] at marks
  contradiction

/-- A command places the label that is made up for it. -/
theorem placesGenerated_of_instructions
    (made : command.instructions layout unit numbering = .ok block)
    (cellsPlain : ∀ name ∈ layout.cellNames, '$' ∉ name.toList) (unitPlain : '$' ∉ unit.toList)
    (scopePlain : '$' ∉ numbering.scope.toList)
    (targets : ∀ target ∈ command.target?, '$' ∉ target.toList)
    (called : ∀ name args, command = .call name args → '$' ∉ name.toList) :
    PlacesGenerated block := by
  intro name generated refers
  have loaded : name ∈ symbolsOf block := List.mem_filterMap.mpr ⟨_, refers, rfl⟩
  rcases of_mem_symbolsOf made loaded with cell | ⟨landmark, own, rfl⟩ | ⟨target, own, rfl⟩ | asked
  · exact absurd generated (not_isGenerated (cellsPlain name cell))
  · have label : landmark.symbol ∈ labelsOf block := by
      rw [labelsOf_instructions made, Option.mem_toList]
      exact Option.mem_map_of_mem _ own
    obtain ⟨instruction, member, isLabel⟩ := List.mem_filterMap.mp label
    cases instruction with
    | label other =>
      obtain rfl := Option.some.inj isLabel
      exact member
    | _ => contradiction
  · exact absurd generated (not_isGenerated_labelSymbol scopePlain (targets target own))
  · refine absurd generated (not_isGenerated ?_)
    cases command with
    | push segment index =>
      cases segment with
      | static =>
        obtain rfl := Option.some.inj asked
        exact noMark_staticSymbol unitPlain
      | _ => contradiction
    | pop segment index =>
      cases segment with
      | static =>
        obtain rfl := Option.some.inj asked
        exact noMark_staticSymbol unitPlain
      | _ => contradiction
    | call function args =>
      obtain rfl := Option.some.inj asked
      exact called _ args rfl
    | _ => contradiction

/-- Instructions in parts place the labels made up for them if each part does. -/
theorem placesGenerated_flatten {blocks : List (List Instruction)}
    (each : ∀ block ∈ blocks, PlacesGenerated block) : PlacesGenerated blocks.flatten := by
  intro name generated refers
  obtain ⟨block, member, inside⟩ := List.mem_flatten.mp refers
  exact List.mem_flatten.mpr ⟨block, member, each block member name generated inside⟩

end Generated

section Translations

variable {options : Options}

/-- The code of a unit places the labels that are made up for it. -/
theorem placesGenerated_of_hasLines {unit : String × List Command} {lines : List Line}
    (made : HasLines options unit lines)
    (cellsPlain : ∀ name ∈ options.layout.cellNames, '$' ∉ name.toList)
    (unitPlain : '$' ∉ unit.1.toList) : PlacesGenerated (codeOf lines) := by
  obtain ⟨blocks, matched, code, -⟩ := unitSites_written made 0
  rw [code]
  refine placesGenerated_flatten fun block member => ?_
  obtain ⟨site, place, own⟩ := exists_mem_left matched member
  obtain ⟨sameUnit, inside, -⟩ := of_mem_unitSites place
  have spelled := made.spelled _ inside
  have scopePlain : '$' ∉ site.numbering.scope.toList :=
    forall_scope (p := fun scope => '$' ∉ scope.toList) place unitPlain
      (fun name named => noMark_of_isName named) made.spelled
  refine placesGenerated_of_instructions own cellsPlain (sameUnit ▸ unitPlain) scopePlain
    (fun target jumps => ?_) fun name args calls => ?_
  · generalize site.command = command at spelled jumps
    cases command with
    | goto name =>
      obtain rfl := Option.some.inj jumps
      exact noMark_of_isName spelled
    | ifGoto name =>
      obtain rfl := Option.some.inj jumps
      exact noMark_of_isName spelled
    | _ => contradiction
  · rw [calls] at spelled
    exact noMark_of_isName spelled.1

/-- The code of a bootstrap places the label that is made up for it. -/
theorem placesGenerated_bootstrapLines (comments : Bool)
    (plain : ∀ name ∈ options.layout.names, '$' ∉ name.toList) :
    PlacesGenerated (codeOf (bootstrapLines options.layout comments)) := by
  obtain ⟨entryPlain, cellsPlain⟩ := List.forall_mem_cons.mp plain
  have call : PlacesGenerated
      (callBlock options.layout.entry 0 bootstrapSite.numbering.returnSymbol) :=
    placesGenerated_of_instructions (instructions_entry options.layout) cellsPlain (by decide)
      (by decide) (fun target jumps => by contradiction)
      fun name args same => (Command.call.inj same).1 ▸ entryPlain
  rw [codeOf_bootstrapLines]
  intro name generated refers
  refine List.mem_append_right _ (call name generated ?_)
  refine (List.mem_append.mp refers).resolve_left fun front => ?_
  have stack : name = "SP" := by simpa [Instruction.store] using front
  have unmarked : '$' ∉ "SP".toList := by decide
  exact not_isGenerated unmarked (stack ▸ generated)

/-- The label lines of a linked program are distinct, with a bootstrap and without, if its functions
and labels are told apart by their names and each name stands on one line; and the labels that a
translation makes up are placed in the code of the unit, or of the bootstrap, that refers to
them. -/
theorem nodup_labelLines {units : List SourceUnit} {text : String}
    (given : Unambiguous (units.map fun unit => (unit.name, unit.commands)))
    (named : ∀ unit ∈ units, '\n' ∉ unit.name.toList)
    (whole : ∀ name ∈ options.layout.names, '\n' ∉ name.toList)
    (plain : ∀ name ∈ options.layout.names, '$' ∉ name.toList)
    (translated : translate options units = .ok text) :
    (labelLines text).Nodup ∧ ∃ written,
      List.Forall₂ (fun unit lines => translateUnit options unit = .ok lines) units written ∧
      text = linesText (programLines options written) ++ "\n" ∧
      (∀ lines ∈ written, PlacesGenerated (codeOf lines)) ∧
      PlacesGenerated (codeOf (bootstrapLines options.layout options.comments)) := by
  obtain ⟨written, made, rfl⟩ := link_map_eq_ok.mp translated
  have lines := forall₂_hasLines made
  have names : ∀ unit ∈ units.map fun unit => (unit.name, unit.commands), '\n' ∉ unit.1.toList :=
    List.forall_mem_map.mpr named
  have spelled : ∀ unit ∈ units.map fun unit => (unit.name, unit.commands),
      ∀ command ∈ unit.2, command.Spelled := fun unit member => by
    obtain ⟨own, -, unitMade⟩ := exists_mem_right lines member
    exact unitMade.spelled
  refine ⟨?_, written, made, rfl, fun own member => ?_, placesGenerated_bootstrapLines _ plain⟩
  · rw [labelLines_linesText (programLines_ne_nil options written)
      (readable_programLines lines whole names), labelsOf_programLines lines]
    refine (given.nodup_symbols spelled options.bootstrap).map_on fun left _ right _ same => ?_
    rw [Assembly.toList_text_label, Assembly.toList_text_label] at same
    exact String.toList_inj.mp (List.append_cancel_right (List.cons.inj same).2)
  · obtain ⟨unit, member, unitMade⟩ := exists_mem_left lines member
    exact placesGenerated_of_hasLines unitMade (List.forall_mem_cons.mp plain).2
      (given.plain unit member)

/-- A unit whose two functions have a label of the same name. -/
def twiceUnit : SourceUnit where
  name := "Main"
  filename := "Main.vm"
  source := "label L\nfunction Main.f 0\nlabel L\neq\nreturn\nfunction Main.g 0\nlabel L\neq\n" ++
    "call Main.f 0\nreturn\n"

/-- The commands of the unit. -/
private theorem commands_twiceUnit : twiceUnit.commands =
    [.label "L", .function "Main.f" 0, .label "L", .operate .eq, .return, .function "Main.g" 0,
      .label "L", .operate .eq, .call "Main.f" 0, .return] := by
  decide

/-- The label lines of a program with a label in two functions are distinct. -/
theorem twice_nodup_labelLines :
    ∃ text, translate {} [twiceUnit] = .ok text ∧ (labelLines text).Nodup := by
  have translated : translate {} [twiceUnit] = .ok ((translate {} [twiceUnit]).toOption.getD "") :=
    eq_ok_getD "" (by decide)
  have given : Unambiguous ([twiceUnit].map fun unit => (unit.name, unit.commands)) := by
    rw [List.map_singleton, commands_twiceUnit]
    constructor <;> decide
  exact ⟨_, translated, (nodup_labelLines given (by decide) (by decide) (by decide) translated).1⟩

/-- A unit whose name brings a label line of its own into each label of the unit. -/
def repeatingUnit : SourceUnit where
  name := "A)\n(B"
  filename := "A.vm"
  source := "label X\nlabel Y\npush constant 1\n"

/-- A name with a line end can bring a label line into a program twice. -/
theorem repeating_not_nodup_labelLines :
    ∃ text, Unambiguous ([repeatingUnit].map fun unit => (unit.name, unit.commands)) ∧
      translate plainOptions [repeatingUnit] = .ok text ∧ ¬ (labelLines text).Nodup := by
  have commands : repeatingUnit.commands = [.label "X", .label "Y", .push .constant 1] := by
    decide
  refine ⟨_, ?_, eq_ok_getD "" (by decide), by decide⟩
  rw [List.map_singleton, commands]
  constructor <;> decide

end Translations

end JackToolchain
