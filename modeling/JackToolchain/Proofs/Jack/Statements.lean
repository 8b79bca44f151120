import JackToolchain.Proofs.Jack.Expressions

/-!
# Statements on the stack

The commands of statements have the effect of executing the statements. They end behind the last
command with the stack as it was, or at a return with the result on top. The induction is on the
execution: each turn of a loop comes back to the commands of the loop.
-/
namespace JackToolchain.Jack

open Machine (Word)
open Vm (Command truth)
open Vm.Routine (Contains Passes Point Scratch State Store labelPosition? labelPosition?_eq labels
  passes_goto passes_ifGoto_of_ne_zero passes_ifGoto_zero passes_label passes_operate step?)

section Ends

variable (code : List Command) (context : Context) (scratch : Scratch) (this : Word)

/-- The commands get from a point to the end of some statements: to the position `finish` with the
given stack, or to a return with the result on top of it. -/
def Finishes (start : Point) (finish : Nat) (stack : List Word) : Ending → Prop
  | .next store => Passes code context.calls scratch this start ⟨finish, stack, store⟩
  | .returned result store =>
    ∃ position, code[position]? = some .return ∧
      Passes code context.calls scratch this start ⟨position, result :: stack, store⟩

/-- Wherever they stand, some commands start with a store and end in this way. -/
def Achieves (stack : List Word) (part : List Command) (store : Store) (ending : Ending) : Prop :=
  ∀ position, Contains code position part →
    Finishes code context scratch this ⟨position, stack, store⟩ (position + part.length) stack
      ending

end Ends

section Statements

variable {code : List Command} {context : Context} {scratch : Scratch} {this : Word}
variable {scope : Scope} {start middle : Point} {position finish last number next : Nat}
variable {stack : List Word} {store after second : Store} {word : Word} {ending : Ending}

/-- Statements finish from where their commands have got already. -/
theorem Finishes.of_passes (first : Passes code context.calls scratch this start middle)
    (others : Finishes code context scratch this middle finish stack ending) :
    Finishes code context scratch this start finish stack ending := by
  cases ending with
  | next store => exact first.trans others
  | returned result store =>
    obtain ⟨position, place, passed⟩ := others
    exact ⟨position, place, first.trans passed⟩

/-- The end of statements is moved by commands that keep the stack and the store. -/
theorem Finishes.move (own : Finishes code context scratch this start finish stack ending)
    (moved : ∀ store, Passes code context.calls scratch this ⟨finish, stack, store⟩
      ⟨last, stack, store⟩) :
    Finishes code context scratch this start last stack ending := by
  cases ending with
  | next store => exact Passes.trans own (moved store)
  | returned result store => exact own

/-- Commands that end behind their last one are followed by the next ones. -/
theorem Achieves.append {front back : List Command} {between : Store}
    (first : Achieves code context scratch this stack front store (.next between))
    (second : Achieves code context scratch this stack back between ending) :
    Achieves code context scratch this stack (front ++ back) store ending := by
  intro position placed
  rw [List.length_append, ← Nat.add_assoc]
  exact (second _ (placed.right rfl)).of_passes (first position placed.left)

/-- Commands that end at a return are not followed by others. -/
theorem Achieves.append_returned {front back : List Command} {result : Word}
    (first : Achieves code context scratch this stack front store (.returned result after)) :
    Achieves code context scratch this stack (front ++ back) store (.returned result after) :=
  fun position placed => first position placed.left

/-! ## Conditions -/

/-- The negation of a word is zero exactly if the word is true. -/
theorem not_eq_zero_iff (word : Word) : ~~~word = 0 ↔ word = truth true := by
  have bits : truth true = ~~~0 := rfl
  rw [bits, UInt16.not_eq_comm]

/-- The commands of a test go on if the condition is true. -/
theorem passes_test_true {name : String}
    (placed : Contains code position [.operate .not, .ifGoto name]) :
    Passes code context.calls scratch this ⟨position, truth true :: stack, store⟩
      ⟨position + 2, stack, store⟩ := by
  have inverted : Passes code context.calls scratch this ⟨position, truth true :: stack, store⟩
      ⟨position + 1, 0 :: stack, store⟩ := passes_operate placed.head rfl
  exact inverted.trans (passes_ifGoto_zero placed.tail.head)

/-- The commands of a test jump if the condition is not true. -/
theorem passes_test_false {name : String} {word : Word} {target : Nat}
    (placed : Contains code position [.operate .not, .ifGoto name]) (other : word ≠ truth true)
    (found : labelPosition? code name = some target) :
    Passes code context.calls scratch this ⟨position, word :: stack, store⟩
      ⟨target, stack, store⟩ := by
  have inverted : Passes code context.calls scratch this ⟨position, word :: stack, store⟩
      ⟨position + 1, ~~~word :: stack, store⟩ := passes_operate placed.head rfl
  have nonzero : ~~~word ≠ 0 := fun zero => other ((not_eq_zero_iff word).mp zero)
  exact inverted.trans (passes_ifGoto_of_ne_zero placed.tail.head nonzero found)

/-! ## Branches and loops -/

section Jumps

variable {condition : Expr} {conditionCode : List Command} (sees : scope.Sees context)
variable (distinct : (labels code).Nodup)
variable (conditionMade : condition.commands context.runtime scope = .ok conditionCode)
include sees distinct conditionMade

/-- A branch does what the statements do that it chooses. -/
theorem achieves_branch {thenCode elseCode : List Command}
    (meant : condition.eval context this store = some (word, second))
    (thenPart : word = truth true →
      Achieves code context scratch this stack thenCode second ending)
    (elsePart : word ≠ truth true →
      Achieves code context scratch this stack elseCode second ending) :
    Achieves code context scratch this stack
      (branchCommands number conditionCode thenCode elseCode) store ending := by
  intro position placed
  simp only [branchCommands, List.append_assoc, List.length_append, ← Nat.add_assoc] at placed ⊢
  have test := placed.right rfl
  have yes := test.right rfl
  have turn := yes.right rfl
  have no := turn.right rfl
  have bottom := no.right rfl
  have otherwiseFound := labelPosition?_eq distinct turn.left.tail.head
  have doneFound := labelPosition?_eq distinct bottom.head
  apply Finishes.of_passes (passes_of_eval condition sees conditionMade placed.left rfl meant)
  by_cases holds : word = truth true
  · rw [holds]
    apply Finishes.of_passes (passes_test_true test.left)
    apply (thenPart holds _ yes.left).move
    intro store
    exact (passes_goto turn.left.head doneFound).trans (passes_label bottom.head)
  · apply Finishes.of_passes (passes_test_false test.left holds otherwiseFound)
    apply Finishes.of_passes (passes_label turn.left.tail.head)
    apply (elsePart holds _ no.left).move
    intro store
    exact passes_label bottom.head

/-- A loop whose condition is not true ends. -/
theorem achieves_loop_end {bodyCode : List Command}
    (meant : condition.eval context this store = some (word, second))
    (other : word ≠ truth true) :
    Achieves code context scratch this stack (loopCommands number conditionCode bodyCode) store
      (.next second) := by
  intro position placed
  simp only [loopCommands, List.append_assoc, List.length_append, ← Nat.add_assoc] at placed ⊢
  have asked := placed.right rfl
  have test := asked.right rfl
  have body := test.right rfl
  have bottom := body.right rfl
  have doneFound := labelPosition?_eq distinct bottom.tail.head
  have started : Passes code context.calls scratch this ⟨position, stack, store⟩
      ⟨position + 1, stack, store⟩ := passes_label placed.head
  apply started.trans
  apply (passes_of_eval condition sees conditionMade asked.left rfl meant).trans
  apply (passes_test_false test.left other doneFound).trans
  exact passes_label bottom.tail.head

/-- A turn of a loop whose condition is true comes back to the start of the loop. -/
theorem finishes_turn {bodyCode : List Command}
    (placed : Contains code position (loopCommands number conditionCode bodyCode))
    (meant : condition.eval context this store = some (truth true, second))
    (bodyPart : Achieves code context scratch this stack bodyCode second ending) :
    Finishes code context scratch this ⟨position, stack, store⟩ position stack ending := by
  simp only [loopCommands, List.append_assoc] at placed
  have asked := placed.right rfl
  have test := asked.right rfl
  have body := test.right rfl
  have bottom := body.right rfl
  have topFound := labelPosition?_eq distinct placed.head
  have started : Passes code context.calls scratch this ⟨position, stack, store⟩
      ⟨position + 1, stack, store⟩ := passes_label placed.head
  apply Finishes.of_passes started
  apply Finishes.of_passes (passes_of_eval condition sees conditionMade asked.left rfl meant)
  apply Finishes.of_passes (passes_test_true test.left)
  apply (bodyPart _ body.left).move
  intro store
  exact passes_goto bottom.head topFound

end Jumps

/-! ## Statements -/

/-- An assignment to a variable. -/
theorem achieves_assign {target : Name} {value : Expr} {span : Span} {entry : Entry}
    {part : List Command} (sees : scope.Sees context)
    (made : (Stmt.assign target value span).commands context.runtime scope number =
      .ok (part, next))
    (meant : value.eval context this store = some (word, after))
    (declared : context.entry? target.node = some entry) :
    Achieves code context scratch this stack part store
      (.next (entry.assign this word after)) := by
  obtain ⟨valueCode, known, valueMade, resolved, rfl, -⟩ := emitted_assign made
  rw [sees.entry_of_resolve resolved] at declared
  obtain rfl := Option.some.inj declared
  intro position placed
  rw [List.length_append, ← Nat.add_assoc]
  have pushed : Passes code context.calls scratch this ⟨position, stack, store⟩
      ⟨position + valueCode.length, word :: stack, after⟩ :=
    passes_of_eval value sees valueMade placed.left rfl meant
  exact pushed.trans (passes_pop_entry (placed.right rfl).head)

/-- An assignment to an element of an array. -/
theorem achieves_assignElement {array : Name} {index value : Expr} {span : Span} {entry : Entry}
    {offset : Word} {third : Store} {part : List Command} (sees : scope.Sees context)
    (made : (Stmt.assignElement array index value span).commands context.runtime scope number =
      .ok (part, next))
    (declared : context.entry? array.node = some entry)
    (indexMeant : index.eval context this store = some (offset, second))
    (valueMeant : value.eval context this second = some (word, third)) :
    Achieves code context scratch this stack part store
      (.next (storeAt third (entry.value this store + offset) word)) := by
  obtain ⟨known, indexCode, valueCode, resolved, indexMade, valueMade, rfl, -⟩ :=
    emitted_assignElement made
  rw [sees.entry_of_resolve resolved] at declared
  obtain rfl := Option.some.inj declared
  intro position placed
  simp only [List.append_assoc, List.length_append, ← Nat.add_assoc] at placed ⊢
  have atIndex := placed.right rfl
  have atSum := atIndex.right rfl
  have atValue := atSum.right rfl
  -- The address is on the stack while the value is computed, which may move the array cursor.
  apply (passes_push_entry placed.head).trans
  apply (passes_of_eval index sees indexMade atIndex.left rfl indexMeant).trans
  apply (passes_operate atSum.head rfl).trans
  apply (passes_of_eval value sees valueMade atValue.left rfl valueMeant).trans
  exact passes_storeAt (atValue.right rfl)

/-- A word is dropped into a temp cell. -/
theorem passes_drop (place : code[position]? = some (.pop .temp 0)) :
    Passes code context.calls scratch this ⟨position, word :: stack, store⟩
      ⟨position + 1, stack, store⟩ := by
  intro that temp
  refine ⟨that, Function.update temp 0 word, .single ?_⟩
  simp [step?, place, State.write?]

/-- A call whose result is dropped. -/
theorem achieves_call {receiver : Option Name} {name : Name} {args : List Expr} {span : Span}
    {part : List Command} (sees : scope.Sees context)
    (made : (Stmt.call receiver name args span).commands context.runtime scope number =
      .ok (part, next))
    (meant : (Expr.call receiver name args span).eval context this store = some (word, after)) :
    Achieves code context scratch this stack part store (.next after) := by
  obtain ⟨callCode, callMade, rfl, -⟩ := emitted_callStatement made
  intro position placed
  rw [List.length_append, ← Nat.add_assoc]
  have pushed : Passes code context.calls scratch this ⟨position, stack, store⟩
      ⟨position + callCode.length, word :: stack, after⟩ :=
    passes_of_eval _ sees callMade placed.left rfl meant
  exact pushed.trans (passes_drop (placed.right rfl).head)

/-- A branch ends as the statements that it chooses. -/
theorem achieves_chosen {condition : Expr} {thenBody elseBody : List Stmt} {span : Span}
    {part : List Command} (sees : scope.Sees context) (distinct : (labels code).Nodup)
    (made : (Stmt.branch condition thenBody elseBody span).commands context.runtime scope number =
      .ok (part, next))
    (meant : condition.eval context this store = some (word, second))
    (bodyPart : ∀ {number next : Nat} {part : List Command},
      bodyCommands context.runtime scope number (chosen word thenBody elseBody) = .ok (part, next) →
        Achieves code context scratch this stack part second ending) :
    Achieves code context scratch this stack part store ending := by
  obtain ⟨conditionCode, thenCode, elseCode, middle, conditionMade, thenMade, elseMade, rfl⟩ :=
    emitted_branch made
  refine achieves_branch sees distinct conditionMade meant (fun holds => ?_) fun other => ?_
  · rw [chosen, if_pos holds] at bodyPart
    exact bodyPart thenMade
  · rw [chosen, if_neg other] at bodyPart
    exact bodyPart elseMade

/-- The commands of statements end as the statements do. -/
theorem achieves_of_executes {stmts : List Stmt} {part : List Command} (sees : scope.Sees context)
    (distinct : (labels code).Nodup) (executed : Executes context this stmts store ending)
    (made : bodyCommands context.runtime scope number stmts = .ok (part, next)) :
    Achieves code context scratch this stack part store ending := by
  induction executed generalizing number next part with
  | done =>
    obtain ⟨rfl, -⟩ := Prod.mk.inj (Except.ok.inj made)
    exact fun position placed => Passes.refl
  | assign meant declared executed ih =>
    obtain ⟨own, later, middle, ownMade, laterMade, rfl⟩ := emitted_body made
    exact (achieves_assign sees ownMade meant declared).append (ih laterMade)
  | assignElement declared indexMeant valueMeant executed ih =>
    obtain ⟨own, later, middle, ownMade, laterMade, rfl⟩ := emitted_body made
    exact (achieves_assignElement sees ownMade declared indexMeant valueMeant).append
      (ih laterMade)
  | branch meant chosen executed chosenIh ih =>
    obtain ⟨own, later, middle, ownMade, laterMade, rfl⟩ := emitted_body made
    exact (achieves_chosen sees distinct ownMade meant chosenIh).append (ih laterMade)
  | branchReturn meant chosen chosenIh =>
    obtain ⟨own, later, middle, ownMade, laterMade, rfl⟩ := emitted_body made
    exact (achieves_chosen sees distinct ownMade meant chosenIh).append_returned
  | loopEnd meant other executed ih =>
    obtain ⟨own, later, middle, ownMade, laterMade, rfl⟩ := emitted_body made
    obtain ⟨conditionCode, bodyCode, conditionMade, bodyMade, rfl⟩ := emitted_loop ownMade
    exact (achieves_loop_end sees distinct conditionMade meant other).append (ih laterMade)
  | loopAgain meant turned executed turnedIh ih =>
    -- The turn ends where the loop starts, so the rest is done by the same commands.
    have again := ih made
    obtain ⟨own, later, middle, ownMade, laterMade, rfl⟩ := emitted_body made
    obtain ⟨conditionCode, bodyCode, conditionMade, bodyMade, rfl⟩ := emitted_loop ownMade
    intro position placed
    have turn := finishes_turn sees distinct conditionMade placed.left meant (turnedIh bodyMade)
    exact (again position placed).of_passes turn
  | loopReturn meant turned turnedIh =>
    obtain ⟨own, later, middle, ownMade, laterMade, rfl⟩ := emitted_body made
    obtain ⟨conditionCode, bodyCode, conditionMade, bodyMade, rfl⟩ := emitted_loop ownMade
    intro position placed
    exact finishes_turn sees distinct conditionMade placed.left meant (turnedIh bodyMade)
  | call meant executed ih =>
    obtain ⟨own, later, middle, ownMade, laterMade, rfl⟩ := emitted_body made
    exact (achieves_call sees ownMade meant).append (ih laterMade)
  | leave =>
    obtain ⟨own, later, middle, ownMade, laterMade, rfl⟩ := emitted_body made
    obtain ⟨rfl, -⟩ := Prod.mk.inj (Except.ok.inj ownMade)
    refine Achieves.append_returned fun position placed => ?_
    exact ⟨position + 1, placed.tail.head, passes_push_constant placed.head⟩
  | leaveWith meant =>
    obtain ⟨own, later, middle, ownMade, laterMade, rfl⟩ := emitted_body made
    obtain ⟨valueCode, valueMade, rfl, -⟩ := emitted_leave ownMade
    refine Achieves.append_returned fun position placed => ?_
    exact ⟨_, (placed.right rfl).head, passes_of_eval _ sees valueMade placed.left rfl meant⟩

end Statements

end JackToolchain.Jack
