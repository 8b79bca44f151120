import JackToolchain.Proofs.Jack.Functions

/-!
# Jumps of a class

Where the jumps of a class go. No two labels of a class have one name, whatever subroutines they are
in and however deep in a statement, and the label that a jump names is a place of the function of
the jump: between the entry of that function and the next entry.
-/
namespace JackToolchain

open Vm.Routine (labels labelPosition?_eq)

namespace Vm

/-! ## Bodies -/

/-- A place of the body of the function that starts at another place. -/
structure InBody (code : List Command) (start place : Nat) : Prop where
  /-- A function starts there. -/
  entry : ∃ name locals, code[start]? = some (.function name locals)
  /-- The place is behind its entry. -/
  behind : start < place
  /-- No other function starts on the way. -/
  plain : ∀ between command, start < between → between ≤ place →
    code[between]? = some command → command.isEntry = false

/-- Two places of the body of one function. -/
def SameFunction (code : List Command) (here there : Nat) : Prop :=
  ∃ start, InBody code start here ∧ InBody code start there

section Bodies

variable {code front body rest : List Command} {start place here there position : Nat}
variable {name : String}

/-- Commands behind others are so many places later. -/
private theorem getElem?_behind (front rest : List Command) (index : Nat) :
    (front ++ rest)[front.length + index]? = rest[index]? := by
  rw [List.getElem?_append_right (Nat.le_add_right _ _), Nat.add_sub_cancel_left]

/-- Functions stay what they are behind other commands. -/
theorem InBody.behind_commands (front : List Command) (own : InBody rest start place) :
    InBody (front ++ rest) (front.length + start) (front.length + place) := by
  refine ⟨?_, Nat.add_lt_add_left own.behind _, fun between command after upto there => ?_⟩
  · obtain ⟨name, locals, entry⟩ := own.entry
    exact ⟨name, locals, (getElem?_behind front rest start).trans entry⟩
  · obtain ⟨index, rfl⟩ : ∃ index, between = front.length + index :=
      Nat.exists_eq_add_of_le (by omega)
    rw [getElem?_behind] at there
    exact own.plain index command (by omega) (by omega) there

/-- Places of one function stay so behind other commands. -/
theorem SameFunction.behind_commands (front : List Command) (own : SameFunction rest here there) :
    SameFunction (front ++ rest) (front.length + here) (front.length + there) := by
  obtain ⟨start, left, right⟩ := own
  exact ⟨_, left.behind_commands front, right.behind_commands front⟩

/-- The commands up to the next entry are the body of a function. -/
theorem inBody_function {locals : Nat} (plain : ∀ command ∈ body, command.isEntry = false)
    (inside : place < body.length) :
    InBody (.function name locals :: (body ++ rest)) 0 (place + 1) := by
  refine ⟨⟨name, locals, rfl⟩, Nat.succ_pos place, fun between command after upto there => ?_⟩
  obtain ⟨index, rfl⟩ := Nat.exists_eq_succ_of_ne_zero after.ne'
  have front : (body ++ rest)[index]? = body[index]? := List.getElem?_append_left (by omega)
  have own : body[index]? = some command := front.symm.trans there
  exact plain command (List.mem_of_getElem? own)

/-- In functions that jump to their own labels only, every jump goes to a label of its function. -/
theorem Functional.exists_label (functional : Functional code) {command : Command}
    (place : code[position]? = some command) (jumps : command.target? = some name) :
    ∃ target, code[target]? = some (.label name) ∧ SameFunction code position target := by
  induction functional generalizing position with
  | nil => contradiction
  | @function entered locals body rest plain inside _ ih =>
    cases position with
    | zero =>
      obtain rfl := Option.some.inj place
      contradiction
    | succ index =>
      have there : (body ++ rest)[index]? = some command := place
      by_cases own : index < body.length
      · -- The jump is in the body of the first function, and so is its label.
        rw [List.getElem?_append_left own] at there
        obtain ⟨label, member, named⟩ := List.mem_filterMap.mp
          (inside command (List.mem_of_getElem? there) name jumps)
        obtain ⟨target, small, found⟩ := List.mem_iff_getElem.mp member
        refine ⟨target + 1, ?_, 0, inBody_function plain own, inBody_function plain small⟩
        have placed : (body ++ rest)[target]? = some label := by
          rw [List.getElem?_append_left small, List.getElem?_eq_getElem small, found]
        cases label with
        | label labelName =>
          obtain rfl := Option.some.inj named
          exact placed
        | _ => contradiction
      · -- The jump is in a later function.
        obtain ⟨later, rfl⟩ := Nat.exists_eq_add_of_le (Nat.le_of_not_lt own)
        let front := Command.function entered locals :: body
        have moved : body.length + later + 1 = front.length + later :=
          Nat.add_right_comm body.length later 1
        rw [moved] at place ⊢
        obtain ⟨target, placed, same⟩ := ih ((getElem?_behind front rest later).symm.trans place)
        exact ⟨front.length + target, (getElem?_behind front rest target).trans placed,
          same.behind_commands front⟩

/-- A label is at one place only if no two labels have one name. -/
theorem label_place_unique (distinct : (labels code).Nodup)
    (left : code[here]? = some (.label name)) (right : code[there]? = some (.label name)) :
    here = there :=
  Option.some.inj ((labelPosition?_eq distinct left).symm.trans (labelPosition?_eq distinct right))

end Bodies

end Vm

namespace Jack

open Vm (Command RuntimeNames SameFunction)

/-! ## Classes -/

/-- The labels of a class are all different, and every jump goes to a label that is at one place
only, in the function of the jump. -/
theorem closed_of_commands {runtime : RuntimeNames} {cls : Class} {code : List Command}
    (made : cls.commands runtime = .ok code) :
    (labels code).Nodup ∧
      ∀ position command name, code[position]? = some command → command.target? = some name →
        ∃ target, code[target]? = some (.label name) ∧
          (∀ other, code[other]? = some (.label name) → other = target) ∧
          SameFunction code position target := by
  obtain ⟨known, -, subroutinesMade⟩ := bind_eq_ok.mp made
  obtain ⟨functional, -, high, numbered⟩ := functional_of_subroutines subroutinesMade
  refine ⟨numbered.distinct, fun position command name place jumps => ?_⟩
  obtain ⟨target, placed, same⟩ := functional.exists_label place jumps
  exact ⟨target, placed, fun other there => Vm.label_place_unique numbered.distinct there placed,
    same⟩

/-- A method with a branch in a loop; its local variable hides a static variable. -/
def raising : Subroutine where
  kind := .method
  result := .int
  name := ⟨"raise", .nowhere⟩
  params := [⟨.int, ⟨"by", .nowhere⟩⟩]
  locals := [⟨.int, ⟨"total", .nowhere⟩⟩]
  body :=
    [.assign ⟨"total", .nowhere⟩ (.variable "by" .nowhere) .nowhere,
      .loop (.variable "total" .nowhere)
        [.branch (.variable "n" .nowhere)
          [.assign ⟨"n", .nowhere⟩ (.integer 1 .nowhere) .nowhere] [] .nowhere] .nowhere,
      .leave none .nowhere]

/-- A function with a branch; it reads the static variable. -/
def summing : Subroutine where
  kind := .function
  result := .int
  name := ⟨"sum", .nowhere⟩
  params := []
  locals := []
  body :=
    [.branch (.variable "total" .nowhere)
      [.leave (some (.variable "total" .nowhere)) .nowhere] [] .nowhere]

/-- A class with both, a field and a static variable. -/
def ledger : Class where
  name := ⟨"Ledger", .nowhere⟩
  vars := [⟨.field, .int, ⟨"n", .nowhere⟩⟩, ⟨.static, .int, ⟨"total", .nowhere⟩⟩]
  subroutines := [raising, summing]

/-- The commands of the class. -/
def ledgerCode : List Command :=
  [.function "Ledger.raise" 1, .push .argument 0, .pop .pointer 0,
    .push .argument 1, .pop .local 0, .label "WHILE_TOP_0", .push .local 0, .operate .not,
    .ifGoto "WHILE_END_1", .push .this 0, .operate .not, .ifGoto "IF_FALSE_2", .push .constant 1,
    .pop .this 0, .goto "IF_END_3", .label "IF_FALSE_2", .label "IF_END_3", .goto "WHILE_TOP_0",
    .label "WHILE_END_1", .push .constant 0, .return,
    .function "Ledger.sum" 0, .push .static 0, .operate .not, .ifGoto "IF_FALSE_4", .push .static 0,
    .return, .goto "IF_END_5", .label "IF_FALSE_4", .label "IF_END_5"]

/-- The class has these commands. -/
theorem ledger_commands : ledger.commands {} = .ok ledgerCode := by
  simp [ledger, raising, summing, Class.commands, ClassScope.ofClass, ClassScope.addSubroutine,
    subroutineCommands, Subroutine.commands, Scope.ofSubroutine, SymbolTable.declareAll,
    SymbolTable.declare, bodyCommands, Stmt.commands, Scope.resolve, Scope.lookup?,
    SymbolTable.get?, Expr.commands, Scope.receiverName, Std.HashMap.getElem_insert, Entry.push,
    Entry.pop, bind, Except.bind, pure, Except.pure, ledgerCode]
  exact ⟨⟨rfl, rfl⟩, by decide⟩

/-- The jumps of the class go to labels of their functions. -/
theorem ledger_closed :
    ledger.commands {} = .ok ledgerCode ∧ (labels ledgerCode).Nodup ∧
      ∀ position command name, ledgerCode[position]? = some command →
        command.target? = some name →
        ∃ target, ledgerCode[target]? = some (.label name) ∧
          (∀ other, ledgerCode[other]? = some (.label name) → other = target) ∧
          SameFunction ledgerCode position target :=
  ⟨ledger_commands, closed_of_commands ledger_commands⟩

end Jack

end JackToolchain
