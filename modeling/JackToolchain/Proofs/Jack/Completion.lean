import JackToolchain.Proofs.Jack.Depth
import JackToolchain.Proofs.Jack.Jumps

/-!
# Where control goes in a class

Control goes from a command to the next one or to the label of a jump. The commands of a statement
can be left behind their last command only, so a statement is a unit of control: what starts in
front of it either stays in it or comes out at its end. It can come out exactly if the statement
can complete, and the commands of a subroutine add nothing behind its last statement: control
leaves a subroutine towards the next one exactly if its body can complete.
-/
namespace JackToolchain

namespace Vm

open Routine (Contains labels)

/-! ## Control -/

/-- Control goes from one place to another: to the next one, or from a jump to its label. -/
inductive GoesTo (code : List Command) : Nat → Nat → Prop where
  | falls {here : Nat} {command : Command} (place : code[here]? = some command)
    (on : command.goesOn = true) : GoesTo code here (here + 1)
  | jumps {here there : Nat} {command : Command} {name : String}
    (place : code[here]? = some command) (jumps : command.target? = some name)
    (label : code[there]? = some (.label name)) : GoesTo code here there

/-- Control goes from one place to another in any number of steps. -/
def Reaches (code : List Command) : Nat → Nat → Prop := Relation.ReflTransGen (GoesTo code)

/-- A function stands from one place to another: it starts with its entry and ends with the next
entry or with the commands. -/
structure Occupies (code : List Command) (name : String) (start stop : Nat) : Prop where
  /-- The function has an entry. -/
  entry : ∃ locals, code[start]? = some (.function name locals)
  /-- It ends behind its entry. -/
  ahead : start < stop
  /-- No other function starts in it. -/
  plain : ∀ place command, start < place → place < stop → code[place]? = some command →
    command.isEntry = false
  /-- Another function starts behind it, or it is the last one. -/
  ends : stop = code.length ∨ ∃ next locals, code[stop]? = some (.function next locals)

/-- Control that is between two places goes from there to places between them or to the second. -/
def Encloses (code : List Command) (start stop : Nat) : Prop :=
  ∀ here there, start ≤ here → here < stop → GoesTo code here there → start ≤ there ∧ there ≤ stop

section Control

variable {code part front back : List Command} {here there start middle stop place : Nat}
variable {command : Command} {name : String}

/-- What holds where control starts and is kept by every step holds where control gets. -/
theorem Reaches.keeps (kept : Nat → Prop) (path : Reaches code here there) (own : kept here)
    (keeps : ∀ place next, kept place → GoesTo code place next → kept next) : kept there := by
  induction path with
  | refl => exact own
  | tail _ step ih => exact keeps _ _ ih step

/-- Commands that go on are passed from one end to the other. -/
theorem reaches_of_goesOn (placed : Contains code start part)
    (on : ∀ command ∈ part, command.goesOn = true) : Reaches code start (start + part.length) := by
  induction part generalizing start with
  | nil => exact .refl
  | cons command rest ih =>
    have first : GoesTo code start (start + 1) :=
      .falls placed.head (on command List.mem_cons_self)
    have others := ih placed.tail fun other member => on other (List.mem_cons_of_mem _ member)
    rw [List.length_cons, Nat.add_comm rest.length, ← Nat.add_assoc]
    exact .head first others

/-- From a command that does not jump control goes to the next one. -/
theorem GoesTo.of_straight (step : GoesTo code here there) (own : code[here]? = some command)
    (straight : command.target? = none) : there = here + 1 := by
  cases step with
  | falls => rfl
  | jumps place jumps =>
    rw [own] at place
    obtain rfl := Option.some.inj place
    rw [straight] at jumps
    contradiction

/-- Control ends at a return. -/
theorem not_goesTo_of_return (own : code[here]? = some .return) : ¬ GoesTo code here there := by
  intro step
  cases step with
  | falls place on =>
    rw [own] at place
    obtain rfl := Option.some.inj place
    contradiction
  | jumps place jumps =>
    rw [own] at place
    obtain rfl := Option.some.inj place
    contradiction

/-- The commands of a part stand one behind another. -/
theorem Routine.Contains.getElem?_add (placed : Contains code start part) {index : Nat}
    (inside : index < part.length) : code[start + index]? = some part[index] := by
  obtain ⟨front, back, rfl, rfl⟩ := placed
  rw [List.append_assoc, List.getElem?_append_right (Nat.le_add_right _ _),
    Nat.add_sub_cancel_left, List.getElem?_append_left inside, List.getElem?_eq_getElem inside]

/-- A place of a part holds a command of it. -/
theorem Routine.Contains.exists_command (placed : Contains code start part) (after : start ≤ here)
    (before : here < start + part.length) : ∃ command ∈ part, code[here]? = some command := by
  obtain ⟨index, rfl⟩ := Nat.exists_eq_add_of_le after
  have inside : index < part.length := by omega
  exact ⟨part[index], List.getElem_mem inside, placed.getElem?_add inside⟩

/-- A label of a part stands in the part, wherever it is found. -/
theorem Routine.Contains.label_inside (distinct : (labels code).Nodup)
    (placed : Contains code start part) (member : name ∈ labels part)
    (found : code[there]? = some (.label name)) : start ≤ there ∧ there < start + part.length := by
  obtain ⟨label, inside, named⟩ := List.mem_filterMap.mp member
  obtain ⟨index, small, same⟩ := List.mem_iff_getElem.mp inside
  have own : code[start + index]? = some (.label name) := by
    rw [placed.getElem?_add small, same]
    cases label with
    | label other => rw [Option.some.inj named]
    | _ => contradiction
  have place : there = start + index := label_place_unique distinct found own
  omega

/-- Commands that jump to their own labels enclose control. -/
theorem encloses_of_jumpsTo (distinct : (labels code).Nodup) (placed : Contains code start part)
    (inside : JumpsTo (labels part) part) : Encloses code start (start + part.length) := by
  intro here there after before step
  cases step with
  | falls => exact ⟨by omega, before⟩
  | jumps own jumps label =>
    obtain ⟨command, member, found⟩ := placed.exists_command after before
    rw [own] at found
    obtain rfl := Option.some.inj found
    have target := placed.label_inside distinct (inside _ member _ jumps) label
    exact ⟨target.1, by omega⟩

/-- Enclosed control stays, or it comes out at the end. -/
theorem Encloses.stays_or_passes (closed : Encloses code start stop)
    (path : Reaches code here place) (after : start ≤ here) (before : here ≤ stop) :
    (start ≤ place ∧ place < stop) ∨ (Reaches code here stop ∧ Reaches code stop place) := by
  by_cases out : here = stop
  · exact .inr ⟨out ▸ .refl, out ▸ path⟩
  · induction path with
    | refl => exact .inl ⟨after, by omega⟩
    | @tail middle next way step ih =>
      rcases ih with inside | ⟨passed, behind⟩
      · obtain ⟨low, high⟩ := closed middle next inside.1 inside.2 step
        by_cases last : next = stop
        · rw [← last]
          exact .inr ⟨way.tail step, .refl⟩
        · exact .inl ⟨low, by omega⟩
      · exact .inr ⟨passed, behind.tail step⟩

/-- Enclosed control that does not get to the end stays. -/
theorem Encloses.stays (closed : Encloses code start stop) (order : start ≤ stop)
    (trapped : ¬ Reaches code start stop) (path : Reaches code start place) :
    start ≤ place ∧ place < stop := by
  rcases closed.stays_or_passes path (Nat.le_refl start) order with inside | passed
  · exact inside
  · exact absurd passed.1 trapped

/-- What lies behind a part that encloses control is reached through its end. -/
theorem Encloses.reaches_iff (closed : Encloses code start middle) (order : start ≤ middle)
    (behind : middle ≤ place) :
    Reaches code start place ↔ Reaches code start middle ∧ Reaches code middle place := by
  constructor
  · intro path
    rcases closed.stays_or_passes path (Nat.le_refl start) order with inside | passed
    · omega
    · exact passed
  · rintro ⟨first, second⟩
    exact first.trans second

end Control

end Vm

namespace Jack

open Vm (Command RuntimeNames GoesTo Reaches Occupies Encloses JumpsTo encloses_of_jumpsTo
  reaches_of_goesOn not_goesTo_of_return)
open Vm.Routine (Contains labels labels_append)

/-! ## Completion -/

mutual

/-- Whether a statement can complete, as far as its form tells: a loop may end, a return does not
go on, and a branch completes through one of its bodies. -/
def Stmt.completes : Stmt → Bool
  | .branch _ thenBody elseBody _ => Stmt.bodyCompletes thenBody || Stmt.bodyCompletes elseBody
  | .leave _ _ => false
  | .assign _ _ _ | .assignElement _ _ _ _ | .loop _ _ _ | .call _ _ _ _ => true

/-- Whether statements can complete: each of them can. -/
def Stmt.bodyCompletes : List Stmt → Bool
  | [] => true
  | stmt :: rest => stmt.completes && Stmt.bodyCompletes rest

end

section Statements

variable {code condition thenCode elseCode body own : List Command} {start : Nat}
variable {runtime : RuntimeNames} {scope : Scope}

/-- A straight command goes on and does not jump. -/
theorem goesOn_of_isStraight {command : Command} (straight : command.isStraight = true) :
    command.goesOn = true ∧ command.target? = none := by
  cases command <;> first | exact ⟨rfl, rfl⟩ | contradiction

/-- Where the parts of a branch stand whose bodies start at the given places. -/
structure BranchAt (code : List Command) (number : Nat)
    (condition thenCode elseCode : List Command) (start thenStart elseStart : Nat) : Prop where
  /-- The condition, inverted. -/
  test : Contains code start (condition ++ [.operate .not])
  /-- The jump to the second body. -/
  away : code[start + condition.length + 1]? = some (.ifGoto (numberedLabel "IF_FALSE" number))
  /-- The first body follows. -/
  thenAt : thenStart = start + condition.length + 2
  /-- The first body. -/
  thenPart : Contains code thenStart thenCode
  /-- The jump to the end. -/
  leave : code[thenStart + thenCode.length]? =
    some (.goto (numberedLabel "IF_END" (number + 1)))
  /-- The label of the second body. -/
  otherwise : code[thenStart + thenCode.length + 1]? =
    some (.label (numberedLabel "IF_FALSE" number))
  /-- The second body follows. -/
  elseAt : elseStart = thenStart + thenCode.length + 2
  /-- The second body. -/
  elsePart : Contains code elseStart elseCode
  /-- The label of the end. -/
  done : code[elseStart + elseCode.length]? =
    some (.label (numberedLabel "IF_END" (number + 1)))

/-- The parts of a branch stand one behind another. -/
theorem branchAt_of_placed {number : Nat}
    (placed : Contains code start (branchCommands number condition thenCode elseCode)) :
    BranchAt code number condition thenCode elseCode start (start + condition.length + 2)
      (start + condition.length + 2 + thenCode.length + 2) := by
  have whole : branchCommands number condition thenCode elseCode =
      (condition ++ [.operate .not]) ++ (.ifGoto (numberedLabel "IF_FALSE" number) ::
        (thenCode ++ (.goto (numberedLabel "IF_END" (number + 1)) ::
          .label (numberedLabel "IF_FALSE" number) ::
            (elseCode ++ [.label (numberedLabel "IF_END" (number + 1))])))) := by
    simp [branchCommands]
  rw [whole] at placed
  have test := placed.right
    (by rw [List.length_append, List.length_singleton, ← Nat.add_assoc])
  have bodies := test.tail
  have leave := bodies.right rfl
  have otherwise := leave.tail
  have elsePart := otherwise.tail
  have done := elsePart.right rfl
  exact ⟨placed.left, test.head, rfl, bodies.left, leave.head, otherwise.head, rfl, elsePart.left,
    done.head⟩

namespace BranchAt

variable {number thenStart elseStart : Nat}

/-- The test of a branch is straight. -/
theorem straight_test (test : condition.all Command.isStraight = true) :
    ∀ command ∈ condition ++ [.operate .not], command.isStraight = true := by
  intro command member
  rcases List.mem_append.mp member with own | last
  · exact List.all_eq_true.mp test command own
  · rw [List.mem_singleton.mp last]
    rfl

/-- Control gets to the jump behind the test. -/
theorem reaches_away
    (branch : BranchAt code number condition thenCode elseCode start thenStart elseStart)
    (test : condition.all Command.isStraight = true) :
    Reaches code start (start + condition.length + 1) := by
  have passed := reaches_of_goesOn branch.test fun command member =>
    (goesOn_of_isStraight (straight_test test command member)).1
  rwa [List.length_append, List.length_singleton, ← Nat.add_assoc] at passed

/-- Control that comes out of the first body comes out of the branch. -/
theorem reaches_of_then
    (branch : BranchAt code number condition thenCode elseCode start thenStart elseStart)
    (test : condition.all Command.isStraight = true)
    (completes : Reaches code thenStart (thenStart + thenCode.length)) :
    Reaches code start (elseStart + elseCode.length + 1) := by
  have enter : GoesTo code (start + condition.length + 1) thenStart := by
    rw [branch.thenAt]
    exact .falls branch.away rfl
  have out : GoesTo code (thenStart + thenCode.length) (elseStart + elseCode.length) :=
    .jumps branch.leave rfl branch.done
  exact ((((branch.reaches_away test).tail enter).trans completes).tail out).tail
    (.falls branch.done rfl)

/-- Control that comes out of the second body comes out of the branch. -/
theorem reaches_of_else
    (branch : BranchAt code number condition thenCode elseCode start thenStart elseStart)
    (test : condition.all Command.isStraight = true)
    (completes : Reaches code elseStart (elseStart + elseCode.length)) :
    Reaches code start (elseStart + elseCode.length + 1) := by
  have enter : GoesTo code (start + condition.length + 1) (thenStart + thenCode.length + 1) :=
    .jumps branch.away rfl branch.otherwise
  have next : GoesTo code (thenStart + thenCode.length + 1) elseStart := by
    rw [branch.elseAt]
    exact .falls branch.otherwise rfl
  exact ((((branch.reaches_away test).tail enter).tail next).trans completes).tail
    (.falls branch.done rfl)

/-- Where control is as long as it has not come out of a body: in the test, behind the start of a
body, or on the label in front of the second one. -/
inductive Within (code : List Command) (start thenStart elseStart place : Nat) : Prop where
  | test (low : start ≤ place) (high : place < thenStart)
  | first (path : Reaches code thenStart place)
  | label (here : place + 1 = elseStart)
  | second (path : Reaches code elseStart place)

/-- A step of control stays within the branch. -/
theorem within_step
    (branch : BranchAt code number condition thenCode elseCode start thenStart elseStart)
    (distinct : (labels code).Nodup) (test : condition.all Command.isStraight = true)
    {place next : Nat} (own : Within code start thenStart elseStart place)
    (step : GoesTo code place next) : Within code start thenStart elseStart next := by
  have thenAt := branch.thenAt
  have elseAt := branch.elseAt
  cases own with
  | test low high =>
    by_cases early : place < start + condition.length + 1
    · have inside : place < start + (condition ++ [Command.operate .not]).length := by
        rw [List.length_append, List.length_singleton]
        omega
      obtain ⟨command, member, found⟩ := branch.test.exists_command low inside
      have straight := goesOn_of_isStraight (straight_test test command member)
      have follows := step.of_straight found straight.2
      exact .test (by omega) (by omega)
    · obtain rfl : place = start + condition.length + 1 := by omega
      cases step with
      | falls =>
        have here : start + condition.length + 1 + 1 = thenStart := by omega
        rw [here]
        exact .first .refl
      | jumps own jumps found =>
        rw [branch.away] at own
        obtain rfl := Option.some.inj own
        obtain rfl := Option.some.inj jumps
        have there := Vm.label_place_unique distinct found branch.otherwise
        exact .label (by omega)
  | first path => exact .first (path.tail step)
  | label here =>
    obtain rfl : place = thenStart + thenCode.length + 1 := by omega
    have follows := step.of_straight branch.otherwise rfl
    have there : next = elseStart := by omega
    rw [there]
    exact .second .refl
  | second path => exact .second (path.tail step)

end BranchAt

/-- Control comes out of a branch exactly if it comes out of one of its bodies. -/
theorem reaches_branch {number thenStart elseStart : Nat} (distinct : (labels code).Nodup)
    (branch : BranchAt code number condition thenCode elseCode start thenStart elseStart)
    (test : condition.all Command.isStraight = true) (thenPart : JumpsTo (labels thenCode) thenCode)
    (elsePart : JumpsTo (labels elseCode) elseCode) :
    Reaches code start (elseStart + elseCode.length + 1) ↔
      Reaches code thenStart (thenStart + thenCode.length) ∨
        Reaches code elseStart (elseStart + elseCode.length) := by
  have thenAt := branch.thenAt
  have elseAt := branch.elseAt
  constructor
  · intro path
    have thenClosed := encloses_of_jumpsTo distinct branch.thenPart thenPart
    have elseClosed := encloses_of_jumpsTo distinct branch.elsePart elsePart
    by_contra neither
    obtain ⟨thenTraps, elseTraps⟩ := not_or.mp neither
    have within := path.keeps (BranchAt.Within code start thenStart elseStart)
      (.test (by omega) (by omega)) fun _ _ => branch.within_step distinct test
    cases within with
    | test low high => omega
    | first inside =>
      have kept := thenClosed.stays (by omega) thenTraps inside
      omega
    | label here => omega
    | second inside =>
      have kept := elseClosed.stays (by omega) elseTraps inside
      omega
  · rintro (completes | completes)
    · exact branch.reaches_of_then test completes
    · exact branch.reaches_of_else test completes

/-- Control comes out of every loop. -/
theorem reaches_loop {number : Nat}
    (placed : Contains code start (loopCommands number condition body))
    (test : condition.all Command.isStraight = true) :
    Reaches code start (start + (loopCommands number condition body).length) := by
  let top := numberedLabel "WHILE_TOP" number
  let done := numberedLabel "WHILE_END" (number + 1)
  let front : List Command := .label top :: condition ++ [.operate .not]
  let rest : List Command := .ifGoto done :: (body ++ [.goto top, .label done])
  have whole : loopCommands number condition body = front ++ rest := by
    simp [loopCommands, top, done, front, rest]
  have on : ∀ command ∈ front, command.goesOn = true := by
    intro command member
    rcases List.mem_append.mp member with inside | last
    · rcases List.mem_cons.mp inside with rfl | own
      · rfl
      · exact (goesOn_of_isStraight (List.all_eq_true.mp test command own)).1
    · rw [List.mem_singleton.mp last]
      rfl
  rw [whole] at placed ⊢
  have tested : Reaches code start (start + front.length) := reaches_of_goesOn placed.left on
  have behind : Contains code (start + front.length) rest := placed.right rfl
  have out := (behind.tail.right rfl).tail.head
  have leave := tested.tail (.jumps behind.head rfl out)
  have length : start + (front ++ rest).length =
      start + front.length + 1 + body.length + 1 + 1 := by
    simp only [rest, List.length_append, List.length_cons, List.length_nil]
    omega
  rw [length]
  exact leave.tail (.falls out rfl)

/-- Control comes out of commands that go on and stay in place behind the last one of them. -/
theorem completes_of_straight (placed : Contains code start own)
    (straight : own.all Command.isStraight = true) :
    Reaches code start (start + own.length) :=
  reaches_of_goesOn placed fun command member =>
    (goesOn_of_isStraight (List.all_eq_true.mp straight command member)).1

/-- Control does not come out of commands with a return at their end. -/
theorem not_reaches_of_return (distinct : (labels code).Nodup)
    (placed : Contains code start (own ++ [.return]))
    (straight : own.all Command.isStraight = true) :
    ¬ Reaches code start (start + (own ++ [Command.return]).length) := by
  intro path
  have inside : JumpsTo (labels own) own := .of_straight fun command member =>
    (goesOn_of_isStraight (List.all_eq_true.mp straight command member)).2
  have closed := encloses_of_jumpsTo distinct placed.left inside
  rw [List.length_append, List.length_singleton, ← Nat.add_assoc] at path
  have behind := ((closed.reaches_iff (by omega) (by omega)).mp path).2
  rcases Relation.ReflTransGen.cases_head behind with same | ⟨next, step, -⟩
  · omega
  · exact not_goesTo_of_return (placed.right rfl).head step

mutual

/-- Control comes out of the commands of a statement exactly if the statement can complete. -/
theorem reaches_of_stmt (distinct : (labels code).Nodup) (stmt : Stmt) {number next start : Nat}
    {own : List Command} (made : stmt.commands runtime scope number = .ok (own, next))
    (placed : Contains code start own) :
    Reaches code start (start + own.length) ↔ stmt.completes = true := by
  cases stmt with
  | assign target value span =>
    obtain ⟨valueCode, entry, valueMade, resolved, rfl, -⟩ := emitted_assign made
    refine iff_of_true (completes_of_straight placed ?_) rfl
    rw [List.all_append, straight_of_expr value valueMade]
    rfl
  | assignElement array index value span =>
    obtain ⟨entry, indexCode, valueCode, resolved, indexMade, valueMade, rfl, -⟩ :=
      emitted_assignElement made
    refine iff_of_true (completes_of_straight placed ?_) rfl
    rw [List.all_append, List.all_append, List.all_append, List.all_append,
      straight_of_expr index indexMade, straight_of_expr value valueMade]
    rfl
  | branch condition thenBody elseBody span =>
    obtain ⟨conditionCode, thenCode, elseCode, middle, conditionMade, thenMade, elseMade, rfl⟩ :=
      emitted_branch made
    have branch := branchAt_of_placed placed
    have either := reaches_branch distinct branch (straight_of_expr condition conditionMade)
      (jumpsTo_of_body thenBody thenMade) (jumpsTo_of_body elseBody elseMade)
    have long : start + (branchCommands number conditionCode thenCode elseCode).length =
        start + conditionCode.length + 2 + thenCode.length + 2 + elseCode.length + 1 := by
      simp only [branchCommands, List.length_append, List.length_cons, List.length_nil]
      omega
    rw [long, either, reaches_of_body distinct thenBody thenMade branch.thenPart,
      reaches_of_body distinct elseBody elseMade branch.elsePart, Stmt.completes, Bool.or_eq_true]
  | loop condition body span =>
    obtain ⟨conditionCode, bodyCode, conditionMade, bodyMade, rfl⟩ := emitted_loop made
    exact iff_of_true (reaches_loop placed (straight_of_expr condition conditionMade)) rfl
  | call receiver name args span =>
    obtain ⟨callCode, callMade, rfl, -⟩ := emitted_callStatement made
    refine iff_of_true (completes_of_straight placed ?_) rfl
    rw [List.all_append, straight_of_expr _ callMade]
    rfl
  | leave result span =>
    cases result with
    | none =>
      obtain ⟨rfl, -⟩ := Prod.mk.inj (Except.ok.inj made)
      have traps := @not_reaches_of_return code [.push .constant 0] start distinct placed rfl
      exact iff_of_false traps Bool.false_ne_true
    | some value =>
      obtain ⟨valueCode, valueMade, rfl, -⟩ := emitted_leave made
      have traps := not_reaches_of_return distinct placed (straight_of_expr value valueMade)
      exact iff_of_false traps Bool.false_ne_true

/-- Control comes out of the commands of statements exactly if all of them can complete. -/
theorem reaches_of_body (distinct : (labels code).Nodup) (stmts : List Stmt)
    {number next start : Nat} {own : List Command}
    (made : bodyCommands runtime scope number stmts = .ok (own, next))
    (placed : Contains code start own) :
    Reaches code start (start + own.length) ↔ Stmt.bodyCompletes stmts = true := by
  cases stmts with
  | nil =>
    obtain ⟨rfl, -⟩ := Prod.mk.inj (Except.ok.inj made)
    exact iff_of_true .refl rfl
  | cons stmt rest =>
    obtain ⟨first, later, middle, firstMade, laterMade, rfl⟩ := emitted_body made
    have closed := encloses_of_jumpsTo distinct placed.left (jumpsTo_of_stmt stmt firstMade)
    have cut : Reaches code start (start + first.length + later.length) ↔ _ :=
      closed.reaches_iff (by omega) (by omega)
    rw [List.length_append, ← Nat.add_assoc, cut,
      reaches_of_stmt distinct stmt firstMade placed.left,
      reaches_of_body distinct rest laterMade (placed.right rfl), Stmt.bodyCompletes,
      Bool.and_eq_true]

end

end Statements

/-! ## Subroutines -/

section Subroutines

variable {runtime : RuntimeNames} {known : ClassScope} {code own : List Command} {start : Nat}
variable {subroutine : Subroutine}

/-- The commands of each subroutine stand among those of all, in front of an entry or at the
end. -/
theorem placed_of_subroutines {subroutines : List Subroutine} {number : Nat}
    (made : subroutineCommands runtime known number subroutines = .ok code)
    (member : subroutine ∈ subroutines) :
    ∃ own low high front back, subroutine.commands runtime known low = .ok (own, high) ∧
      code = front ++ own ++ back ∧ ∀ first ∈ back.head?, first.isEntry = true := by
  induction subroutines generalizing number code with
  | nil => contradiction
  | cons first rest ih =>
    obtain ⟨firstCode, later, next, firstMade, laterMade, rfl⟩ := emitted_subroutines made
    rcases List.mem_cons.mp member with rfl | inRest
    · exact ⟨firstCode, number, next, [], later, firstMade, rfl, entry_of_subroutines laterMade⟩
    · obtain ⟨own, low, high, front, back, ownMade, rfl, entered⟩ := ih laterMade inRest
      exact ⟨own, low, high, firstCode ++ front, back, ownMade, by simp, entered⟩

/-- A function stands where its commands are. -/
theorem occupies_of_placed {name : String} {locals : Nat} {body front back : List Command}
    (plain : ∀ command ∈ body, command.isEntry = false)
    (entered : ∀ first ∈ back.head?, first.isEntry = true) :
    Occupies (front ++ .function name locals :: body ++ back) name front.length
      (front.length + (body.length + 1)) := by
  have placed : Contains (front ++ .function name locals :: body ++ back) front.length
      (.function name locals :: body) := ⟨front, back, rfl, rfl⟩
  refine ⟨⟨locals, placed.head⟩, by omega, ?_, ?_⟩
  · intro place command after before found
    have upto : place < front.length + 1 + body.length := by omega
    obtain ⟨other, member, same⟩ := placed.tail.exists_command after upto
    rw [found] at same
    rw [Option.some.inj same]
    exact plain other member
  · cases back with
    | nil =>
      left
      simp
    | cons first rest =>
      right
      have entry := entered first rfl
      cases first with
      | function next count =>
        refine ⟨next, count, ?_⟩
        rw [List.getElem?_append_right (by simp)]
        simp
      | _ => contradiction

/-- What a subroutine does before its body goes on and does not jump. -/
theorem goesOn_of_prologue {name : String} {locals : Nat} :
    ∀ command ∈ .function name locals :: prologue runtime known subroutine.kind,
      command.goesOn = true ∧ command.target? = none := by
  intro command member
  rcases List.mem_cons.mp member with rfl | inside
  · exact ⟨rfl, rfl⟩
  · have straight : (prologue runtime known subroutine.kind).all Command.isStraight = true := by
      cases subroutine.kind <;> rfl
    exact goesOn_of_isStraight (List.all_eq_true.mp straight command inside)

/-- Control comes out of a subroutine at its end only, and it does exactly if the body can
complete. -/
theorem reaches_of_subroutine {number next : Nat} (distinct : (labels code).Nodup)
    (made : subroutine.commands runtime known number = .ok (own, next))
    (placed : Contains code start own) :
    Encloses code start (start + own.length) ∧
      (Reaches code start (start + own.length) ↔
        Stmt.bodyCompletes subroutine.body = true) := by
  obtain ⟨scope, body, -, bodyMade, rfl⟩ := emitted_subroutine made
  rw [← List.cons_append] at placed ⊢
  let front := Command.function (ClassScope.qualify known.name subroutine.name.node)
    scope.routine.counts.local :: prologue runtime known subroutine.kind
  change Contains code start (front ++ body) at placed
  change Encloses code start (start + (front ++ body).length) ∧
    (Reaches code start (start + (front ++ body).length) ↔ _)
  have begun : Reaches code start (start + front.length) :=
    reaches_of_goesOn placed.left fun command member => (goesOn_of_prologue command member).1
  have straight {names : List String} : JumpsTo names front :=
    .of_straight fun command member => (goesOn_of_prologue command member).2
  have inside := (jumpsTo_of_body subroutine.body bodyMade).mono
    (List.subset_append_right (labels front) _)
  rw [← labels_append] at inside
  have cut : Reaches code start (start + front.length + body.length) ↔ _ :=
    (encloses_of_jumpsTo distinct placed.left straight).reaches_iff (by omega) (by omega)
  refine ⟨encloses_of_jumpsTo distinct placed (straight.append inside), ?_⟩
  rw [List.length_append, ← Nat.add_assoc, cut,
    reaches_of_body distinct subroutine.body bodyMade (placed.right rfl)]
  exact and_iff_right begun

variable {cls : Class}

/-- Control comes out of a subroutine, to the next one or to the end of the class, exactly if its
body can complete. From the entry of any other subroutine control stays in the subroutine, where
it goes on from every place but a return. -/
theorem comes_out_iff_completes (made : cls.commands runtime = .ok code)
    (member : subroutine ∈ cls.subroutines) :
    ∃ start stop,
      Occupies code (ClassScope.qualify cls.name.node subroutine.name.node) start stop ∧
      (Reaches code start stop ↔ Stmt.bodyCompletes subroutine.body = true) ∧
      (Stmt.bodyCompletes subroutine.body = false → ∀ place, Reaches code start place →
        (start ≤ place ∧ place < stop) ∧
          (code[place]? = some .return ∨ ∃ next, GoesTo code place next)) := by
  obtain ⟨distinct, closed⟩ := closed_of_commands made
  obtain ⟨known, clsMade, subroutinesMade⟩ := bind_eq_ok.mp made
  obtain ⟨own, low, high, front, back, ownMade, split, entered⟩ :=
    placed_of_subroutines subroutinesMade member
  have placed : Contains code front.length own := ⟨front, back, split, rfl⟩
  obtain ⟨encloses, comesOut⟩ := reaches_of_subroutine distinct ownMade placed
  refine ⟨front.length, front.length + own.length, ?_, comesOut, ?_⟩
  · obtain ⟨locals, rest, labelled, rfl⟩ := function_of_subroutine ownMade
    rw [split, ← (knows_of_ofClass clsMade).1]
    exact occupies_of_placed labelled.plain entered
  · intro traps place path
    have inside : front.length ≤ place ∧ place < front.length + own.length := by
      rcases encloses.stays_or_passes path (by omega) (by omega) with stays | passes
      · exact stays
      · rw [comesOut.mp passes.1] at traps
        contradiction
    obtain ⟨command, -, found⟩ := placed.exists_command inside.1 inside.2
    refine ⟨inside, ?_⟩
    cases command with
    | «return» => exact .inl found
    | goto name =>
      obtain ⟨target, label, -⟩ := closed place _ name found rfl
      exact .inr ⟨target, .jumps found rfl label⟩
    | _ => exact .inr ⟨place + 1, .falls found rfl⟩

/-- The method of the ledger cannot complete, and control stays in it. -/
theorem ledger_keeps_control :
    ledger.commands {} = .ok ledgerCode ∧ raising ∈ ledger.subroutines ∧
      Stmt.bodyCompletes raising.body = false ∧
      ∃ start stop, Occupies ledgerCode "Ledger.raise" start stop ∧
        ∀ place, Reaches ledgerCode start place → (start ≤ place ∧ place < stop) ∧
          (ledgerCode[place]? = some .return ∨ ∃ next, GoesTo ledgerCode place next) := by
  have member : raising ∈ ledger.subroutines := List.mem_cons_self
  obtain ⟨start, stop, stands, -, stays⟩ := comes_out_iff_completes ledger_commands member
  exact ⟨ledger_commands, member, rfl, start, stop, stands, stays rfl⟩

/-- A class whose only function does nothing, not even return. -/
def idle : Class where
  name := ⟨"Idle", .nowhere⟩
  vars := []
  subroutines := [⟨.function, .void, ⟨"run", .nowhere⟩, [], [], []⟩]

/-- Control comes out of a function without a return: the class is accepted, and its commands end
behind the entry of the function. -/
theorem idle_comes_out :
    idle.commands {} = .ok [.function "Idle.run" 0] ∧
      Occupies [.function "Idle.run" 0] "Idle.run" 0 1 ∧
      Reaches [.function "Idle.run" 0] 0 1 := by
  refine ⟨?_, ⟨⟨0, rfl⟩, by decide, ?_, .inl rfl⟩, .single (.falls rfl rfl)⟩
  · simp [idle, Class.commands, ClassScope.ofClass, ClassScope.addSubroutine, subroutineCommands,
      Subroutine.commands, Scope.ofSubroutine, SymbolTable.declareAll, bodyCommands, prologue,
      bind, Except.bind, pure, Except.pure]
    decide
  · intro place command after before
    omega

end Subroutines

end Jack

end JackToolchain
