import JackToolchain.Vm.Assembly

/-!
# The block of a command

A command has instructions exactly if its place and its count are in range, and then they are the
block of its kind. `Lowers` says so with one case for each kind of command: what holds of all blocks
is proved block by block, without the checks that a command passes before it gets one.
-/
namespace JackToolchain.Vm

open Assembly (Instruction)

/-- The block of a command whose place and count are in range. -/
inductive Lowers (layout : Layout) (unit : String) (numbering : Numbering) :
    Command → List Instruction → Prop where
  | operate (operation : Operation) :
    Lowers layout unit numbering (.operate operation) (operation.block numbering.comparisonSymbol)
  | push {segment : Segment} {index : Nat} {location : Location}
    (located : locate? layout unit segment index = some location) :
    Lowers layout unit numbering (.push segment index) location.push
  | pop {segment : Segment} {index : Nat} {location : Location} {block : List Instruction}
    (located : locate? layout unit segment index = some location)
    (popped : location.pop? layout = some block) :
    Lowers layout unit numbering (.pop segment index) block
  | label (name : String) :
    Lowers layout unit numbering (.label name) [.label (numbering.labelSymbol name)]
  | goto (name : String) :
    Lowers layout unit numbering (.goto name) (gotoBlock (numbering.labelSymbol name))
  | ifGoto (name : String) :
    Lowers layout unit numbering (.ifGoto name) (ifGotoBlock (numbering.labelSymbol name))
  | function (name : String) {locals : Nat} (inRange : locals ≤ layout.maxConstant) :
    Lowers layout unit numbering (.function name locals) (functionBlock name locals)
  | call (name : String) {args : Nat} (inRange : args ≤ layout.maxConstant - frameSize) :
    Lowers layout unit numbering (.call name args) (callBlock name args numbering.returnSymbol)
  | return : Lowers layout unit numbering .return (returnBlock layout)

section Lowering

variable {layout : Layout} {unit : String} {numbering : Numbering} {command : Command}
variable {block : List Instruction}

/-- The instructions of a command are the block of its kind. -/
theorem lowers_of_instructions (made : command.instructions layout unit numbering = .ok block) :
    Lowers layout unit numbering command block := by
  cases command with
  | push segment index =>
    simp only [Command.instructions, Command.countLimit?, Command.block, locate] at made
    cases located : locate? layout unit segment index with
    | none =>
      rw [located] at made
      contradiction
    | some location =>
      rw [located] at made
      obtain rfl := Except.ok.inj made
      exact .push located
  | pop segment index =>
    simp only [Command.instructions, Command.countLimit?, Command.block, locate] at made
    cases located : locate? layout unit segment index with
    | none =>
      rw [located] at made
      contradiction
    | some location =>
      simp only [located, bind, Except.bind] at made
      cases popped : location.pop? layout with
      | none =>
        rw [popped] at made
        contradiction
      | some own =>
        rw [popped] at made
        obtain rfl := Except.ok.inj made
        exact .pop located popped
  | function name locals =>
    simp only [Command.instructions, Command.countLimit?, Command.block] at made
    split at made
    · contradiction
    · obtain rfl := Except.ok.inj made
      exact .function name (by omega)
  | call name args =>
    simp only [Command.instructions, Command.countLimit?, Command.block] at made
    split at made
    · contradiction
    · obtain rfl := Except.ok.inj made
      exact .call name (by omega)
  | operate operation =>
    obtain rfl := Except.ok.inj made
    exact .operate operation
  | label name =>
    obtain rfl := Except.ok.inj made
    exact .label name
  | goto name =>
    obtain rfl := Except.ok.inj made
    exact .goto name
  | ifGoto name =>
    obtain rfl := Except.ok.inj made
    exact .ifGoto name
  | «return» =>
    obtain rfl := Except.ok.inj made
    exact .return

/-- The block of its kind is what a command has as its instructions. -/
theorem Lowers.instructions (lowers : Lowers layout unit numbering command block) :
    command.instructions layout unit numbering = .ok block := by
  cases lowers with
  | push located =>
    simp only [Command.instructions, Command.countLimit?, Command.block, locate, located]
    rfl
  | pop located popped =>
    simp only [Command.instructions, Command.countLimit?, Command.block, locate, located, bind,
      Except.bind, popped]
    rfl
  | function name inRange =>
    rw [Command.instructions, Command.countLimit?]
    exact if_neg (Nat.not_lt.mpr inRange)
  | call name inRange =>
    rw [Command.instructions, Command.countLimit?]
    exact if_neg (Nat.not_lt.mpr inRange)
  | _ => rfl

/-- The entry of a function is its label and zeros for its locals. -/
theorem mem_functionBlock {name : String} {locals : Nat} {instruction : Instruction}
    (member : instruction ∈ functionBlock name locals) :
    instruction = .label name ∨ instruction ∈ pushZero := by
  rcases List.mem_cons.mp member with same | inside
  · exact .inl same
  · obtain ⟨zero, copy, there⟩ := List.mem_flatten.mp inside
    rw [List.eq_of_mem_replicate copy] at there
    exact .inr there

end Lowering

end JackToolchain.Vm
