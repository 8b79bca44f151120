import JackToolchain.Proofs.Jack.Emission

/-!
# Accesses in order

The accesses to variables that statements make, in the order of evaluation, and those that their
commands make. They are the same: the commands access the place of each variable where the
statements access the variable, and no other place that holds a variable.
-/
namespace JackToolchain

/-- An access to a variable. -/
inductive Access (α : Type) where
  /-- Its value is read. -/
  | read (target : α)
  /-- Its value is written. -/
  | write (target : α)
deriving DecidableEq, Repr

namespace Access

variable {α β : Type}

/-- What is accessed. -/
def target : Access α → α
  | .read target | .write target => target

/-- The access to what stands for a variable, if something does. -/
def map? (stands : α → Option β) : Access α → Option (Access β)
  | .read target => (stands target).map .read
  | .write target => (stands target).map .write

/-- What is accessed stands for the variable. -/
theorem of_map? {stands : α → Option β} {access : Access α} {image : Access β}
    (mapped : access.map? stands = some image) : stands access.target = some image.target := by
  cases access with
  | read target =>
    obtain ⟨other, found, rfl⟩ := Option.map_eq_some_iff.mp mapped
    exact found
  | write target =>
    obtain ⟨other, found, rfl⟩ := Option.map_eq_some_iff.mp mapped
    exact found

end Access

namespace Vm

/-- Whether a segment holds variables. -/
def Segment.isVariable : Segment → Bool
  | .local | .argument | .this | .static => true
  | .constant | .that | .pointer | .temp => false

/-- The access of a command to a segment that holds variables. -/
def Command.access? : Command → Option (Access (Segment × Nat))
  | .push segment index => if segment.isVariable then some (.read (segment, index)) else none
  | .pop segment index => if segment.isVariable then some (.write (segment, index)) else none
  | _ => none

/-- The accesses of commands to segments that hold variables, in order. -/
def accessesOf (code : List Command) : List (Access (Segment × Nat)) :=
  code.filterMap Command.access?

end Vm

namespace Jack

open Vm (Command RuntimeNames Segment accessesOf)

/-! ## Accesses of the source -/

/-- The accesses of a call besides those of its arguments: its receiver is read first. -/
def receiverAccesses (receiver : Option Name) : List (Access String) :=
  receiver.elim [] fun own => [.read own.node]

mutual

/-- The accesses to names in an expression, in the order of evaluation. -/
def Expr.accesses : Expr → List (Access String)
  | .binary _ left right _ => left.accesses ++ right.accesses
  | .unary _ operand _ => operand.accesses
  | .integer _ _ | .string _ _ | .boolean _ _ | .null _ | .this _ => []
  | .variable name _ => [.read name]
  | .element array index _ => index.accesses ++ [.read array.node]
  | .call receiver _ args _ => receiverAccesses receiver ++ Expr.allAccesses args
  | .group inner _ => inner.accesses

/-- The accesses to names in expressions one after the other. -/
def Expr.allAccesses : List Expr → List (Access String)
  | [] => []
  | expr :: rest => expr.accesses ++ Expr.allAccesses rest

end

mutual

/-- The accesses to names in a statement, in the order in which they stand in its commands. -/
def Stmt.accesses : Stmt → List (Access String)
  | .assign target value _ => value.accesses ++ [.write target.node]
  | .assignElement array index value _ => .read array.node :: (index.accesses ++ value.accesses)
  | .branch condition thenBody elseBody _ =>
    condition.accesses ++ (Stmt.bodyAccesses thenBody ++ Stmt.bodyAccesses elseBody)
  | .loop condition body _ => condition.accesses ++ Stmt.bodyAccesses body
  | .call receiver _ args _ => receiverAccesses receiver ++ Expr.allAccesses args
  | .leave none _ => []
  | .leave (some result) _ => result.accesses

/-- The accesses to names in statements one after the other. -/
def Stmt.bodyAccesses : List Stmt → List (Access String)
  | [] => []
  | stmt :: rest => stmt.accesses ++ Stmt.bodyAccesses rest

end

/-- The accesses to names in a subroutine: a method reads its receiver before its body. -/
def Subroutine.accesses (subroutine : Subroutine) : List (Access String) :=
  (if subroutine.kind = .method then [.read Scope.receiverName] else []) ++
    Stmt.bodyAccesses subroutine.body

/-! ## Accesses of the commands -/

/-- The place of a variable. -/
def Entry.place (entry : Entry) : Segment × Nat := (entry.storage.segment, entry.ordinal)

/-- The place of the variable with a name. -/
def Scope.place? (scope : Scope) (name : String) : Option (Segment × Nat) :=
  (scope.lookup? name).map Entry.place

/-- The accesses to the places of variables with names. A receiver without a place is a class, and
nothing is accessed for it. -/
def Scope.placed (scope : Scope) (names : List (Access String)) :
    List (Access (Segment × Nat)) :=
  names.filterMap (Access.map? scope.place?)

/-- Commands access the places of the variables with the names, in this order, and nothing else
that holds a variable. -/
def Performs (scope : Scope) (names : List (Access String)) (code : List Command) : Prop :=
  accessesOf code = scope.placed names

section Commands

variable {runtime : RuntimeNames} {scope : Scope} {names others : List (Access String)}
variable {code front back : List Command} {entry : Entry} {name : String}

/-- Consecutive commands perform the accesses of both. -/
theorem Performs.append (first : Performs scope names front) (second : Performs scope others back) :
    Performs scope (names ++ others) (front ++ back) := by
  rw [Performs, accessesOf, List.filterMap_append, Scope.placed, List.filterMap_append]
  exact congrArg₂ (· ++ ·) first second

/-- Commands that access no variable may stand anywhere. -/
theorem performs_free (free : accessesOf code = []) : Performs scope [] code := free

/-- Commands that access no variable may follow. -/
theorem Performs.before (first : Performs scope names front) (free : accessesOf back = []) :
    Performs scope names (front ++ back) := by
  have last : Performs scope [] back := performs_free free
  have whole := first.append last
  rwa [List.append_nil] at whole

/-- Commands that access no variable may come first. -/
theorem Performs.behind (second : Performs scope names back) (free : accessesOf front = []) :
    Performs scope names (front ++ back) :=
  (performs_free free).append second

/-- The place of a variable holds a variable. -/
theorem isVariable_place (entry : Entry) : entry.place.1.isVariable = true := by
  obtain ⟨type, storage, ordinal⟩ := entry
  cases storage <;> rfl

/-- The place of a known name. -/
theorem place?_of_lookup? (known : scope.lookup? name = some entry) :
    scope.place? name = some entry.place := by
  rw [Scope.place?, known, Option.map_some]

/-- A command with an access performs it. -/
theorem performs_one {command : Command} {access : Access String} {place : Access (Segment × Nat)}
    (own : command.access? = some place) (placed : access.map? scope.place? = some place) :
    Performs scope [access] [command] :=
  (List.filterMap_cons_some own).trans (List.filterMap_cons_some (l := []) placed).symm

/-- The push of a known variable reads its place. -/
theorem performs_push (known : scope.lookup? name = some entry) :
    Performs scope [.read name] [entry.push] := by
  have access : entry.push.access? = some (.read entry.place) := if_pos (isVariable_place entry)
  exact performs_one access (congrArg (Option.map Access.read) (place?_of_lookup? known))

/-- The pop of a known variable writes its place. -/
theorem performs_pop (known : scope.lookup? name = some entry) :
    Performs scope [.write name] [entry.pop] := by
  have access : entry.pop.access? = some (.write entry.place) := if_pos (isVariable_place entry)
  exact performs_one access (congrArg (Option.map Access.write) (place?_of_lookup? known))

/-- A receiver that is a variable is read, and no other receiver accesses a variable. -/
theorem performs_callee {receiver : Option Name} {callee : Callee} {called : Name}
    (made : scope.callee receiver called = .ok callee) :
    Performs scope (receiverAccesses receiver) callee.receiver := by
  obtain ⟨own, entry, rfl, known, rfl⟩ | ⟨own, rfl, unknown, rfl⟩ | ⟨rfl, rfl⟩ | ⟨rfl, rfl⟩ :=
    callee_cases made
  · exact performs_push known
  · have nowhere : (Access.read own.node).map? scope.place? = none := by
      rw [Access.map?, Scope.place?, unknown]
      rfl
    exact (List.filterMap_cons_none (l := []) nowhere).symm
  · rfl
  · rfl

/-- The commands of a string access no variable. -/
theorem accessesOf_string (content : String) : accessesOf (stringCommands runtime content) = [] := by
  have chars (text : List Char) :
      accessesOf (text.flatMap fun c => [.push .constant c.toNat, .call runtime.stringAppend 2]) =
        [] := by
    induction text with
    | nil => rfl
    | cons c rest ih => exact ih
  exact chars content.toList

mutual

/-- The commands of an expression perform its accesses. -/
theorem performs_of_expr (expr : Expr) {code : List Command}
    (made : expr.commands runtime scope = .ok code) : Performs scope expr.accesses code := by
  unfold Expr.accesses
  cases expr with
  | binary op left right span =>
    obtain ⟨leftCode, rightCode, leftMade, rightMade, rfl⟩ := emitted_binary made
    have operands := (performs_of_expr left leftMade).append (performs_of_expr right rightMade)
    exact operands.before (by cases op <;> rfl)
  | unary op operand span =>
    obtain ⟨operandCode, operandMade, rfl⟩ := emitted_unary made
    exact (performs_of_expr operand operandMade).before (by cases op <;> rfl)
  | string content span =>
    obtain rfl := Except.ok.inj made
    exact performs_free (accessesOf_string content)
  | boolean value span =>
    cases value with
    | false =>
      obtain rfl := Except.ok.inj made
      exact performs_free rfl
    | true =>
      obtain rfl := Except.ok.inj made
      exact performs_free rfl
  | «variable» name span =>
    obtain ⟨entry, resolved, rfl⟩ := emitted_variable made
    exact performs_push (lookup?_of_resolve resolved)
  | element array index span =>
    obtain ⟨indexCode, entry, indexMade, resolved, rfl⟩ := emitted_element made
    have base := performs_push (lookup?_of_resolve resolved)
    have fetch := base.before (rfl : accessesOf [.operate .add, .pop .pointer 1, .push .that 0] = [])
    exact (performs_of_expr index indexMade).append fetch
  | call receiver name args span =>
    obtain ⟨callee, argsCode, calleeMade, argsMade, rfl⟩ := emitted_call made
    exact ((performs_callee calleeMade).append (performs_of_arguments args argsMade)).before rfl
  | group inner span => exact performs_of_expr inner made
  | _ =>
    obtain rfl := Except.ok.inj made
    exact performs_free rfl

/-- The commands of arguments perform their accesses. -/
theorem performs_of_arguments (args : List Expr) {code : List Command}
    (made : argumentCommands runtime scope args = .ok code) :
    Performs scope (Expr.allAccesses args) code := by
  cases args with
  | nil =>
    obtain rfl := Except.ok.inj made
    exact performs_free rfl
  | cons arg rest =>
    obtain ⟨argCode, restCode, argMade, restMade, rfl⟩ := emitted_arguments made
    exact (performs_of_expr arg argMade).append (performs_of_arguments rest restMade)

end

mutual

/-- The commands of a statement perform its accesses. -/
theorem performs_of_stmt (stmt : Stmt) {number next : Nat} {code : List Command}
    (made : stmt.commands runtime scope number = .ok (code, next)) :
    Performs scope stmt.accesses code := by
  unfold Stmt.accesses
  cases stmt with
  | assign target value span =>
    obtain ⟨valueCode, entry, valueMade, resolved, rfl, -⟩ := emitted_assign made
    exact (performs_of_expr value valueMade).append (performs_pop (lookup?_of_resolve resolved))
  | assignElement array index value span =>
    obtain ⟨entry, indexCode, valueCode, resolved, indexMade, valueMade, rfl, -⟩ :=
      emitted_assignElement made
    have base := performs_push (lookup?_of_resolve resolved)
    have address := (base.append (performs_of_expr index indexMade)).before
      (rfl : accessesOf [.operate .add] = [])
    exact (address.append (performs_of_expr value valueMade)).before rfl
  | branch condition thenBody elseBody span =>
    obtain ⟨conditionCode, thenCode, elseCode, middle, conditionMade, thenMade, elseMade, rfl⟩ :=
      emitted_branch made
    have test := (performs_of_expr condition conditionMade).before
      (rfl : accessesOf [.operate .not, .ifGoto (numberedLabel "IF_FALSE" number)] = [])
    have first := (test.append (performs_of_body thenBody thenMade)).before
      (rfl : accessesOf [.goto (numberedLabel "IF_END" (number + 1)),
        .label (numberedLabel "IF_FALSE" number)] = [])
    have both := (first.append (performs_of_body elseBody elseMade)).before
      (rfl : accessesOf [.label (numberedLabel "IF_END" (number + 1))] = [])
    rwa [List.append_assoc] at both
  | loop condition body span =>
    obtain ⟨conditionCode, bodyCode, conditionMade, bodyMade, rfl⟩ := emitted_loop made
    have test := ((performs_of_expr condition conditionMade).behind
      (rfl : accessesOf [.label (numberedLabel "WHILE_TOP" number)] = [])).before
      (rfl : accessesOf [.operate .not, .ifGoto (numberedLabel "WHILE_END" (number + 1))] = [])
    exact (test.append (performs_of_body body bodyMade)).before rfl
  | call receiver name args span =>
    obtain ⟨callCode, callMade, rfl, -⟩ := emitted_callStatement made
    exact (performs_of_expr _ callMade).before rfl
  | leave result span =>
    cases result with
    | none =>
      obtain ⟨rfl, -⟩ := Prod.mk.inj (Except.ok.inj made)
      exact performs_free rfl
    | some value =>
      obtain ⟨valueCode, valueMade, rfl, -⟩ := emitted_leave made
      exact (performs_of_expr value valueMade).before rfl

/-- The commands of statements perform their accesses. -/
theorem performs_of_body (stmts : List Stmt) {number next : Nat} {code : List Command}
    (made : bodyCommands runtime scope number stmts = .ok (code, next)) :
    Performs scope (Stmt.bodyAccesses stmts) code := by
  cases stmts with
  | nil =>
    obtain ⟨rfl, -⟩ := Prod.mk.inj (Except.ok.inj made)
    exact performs_free rfl
  | cons stmt rest =>
    obtain ⟨stmtCode, restCode, middle, stmtMade, restMade, rfl⟩ := emitted_body made
    exact (performs_of_stmt stmt stmtMade).append (performs_of_body rest restMade)

end

/-- What commands access is the place of a name. -/
theorem Performs.exists_name {access : Access (Segment × Nat)} (performs : Performs scope names code)
    (member : access ∈ accessesOf code) : ∃ name, scope.place? name = some access.target := by
  rw [performs] at member
  obtain ⟨named, -, placed⟩ := List.mem_filterMap.mp member
  exact ⟨named.target, Access.of_map? placed⟩

end Commands

end Jack

end JackToolchain
