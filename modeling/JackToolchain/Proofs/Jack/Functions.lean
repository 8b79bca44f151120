import JackToolchain.Proofs.Jack.Preservation
import JackToolchain.Proofs.Jack.Spelling
import JackToolchain.Proofs.Vm.Separation

/-!
# Functions of a class

The commands of a class are functions one behind another, one for each subroutine and under its
qualified name. The labels of a class are all different, and the jumps of a statement go to labels
of the statement.
-/
namespace JackToolchain.Jack

open Vm (Command RuntimeNames Functional IsQualified JumpsTo entries)
open Vm.Routine (labels labels_append)

section Jumps

variable {names others : List String} {front back code : List Command}
variable {runtime : RuntimeNames} {scope : Scope}

/-- The commands of an expression do not jump. -/
theorem jumpsTo_of_expr {expr : Expr} (made : expr.commands runtime scope = .ok code) :
    JumpsTo names code := by
  refine .of_straight fun command member => ?_
  have straight := List.all_eq_true.mp (straight_of_expr expr made) command member
  cases command <;> first | rfl | contradiction

/-- The jumps of a branch go to its two labels and to those of its bodies. -/
theorem jumpsTo_branch {number : Nat} {condition thenCode elseCode : List Command}
    (test : ∀ names, JumpsTo names condition) (thenPart : JumpsTo (labels thenCode) thenCode)
    (elsePart : JumpsTo (labels elseCode) elseCode) :
    JumpsTo (labels (branchCommands number condition thenCode elseCode))
      (branchCommands number condition thenCode elseCode) := by
  have own : labels (branchCommands number condition thenCode elseCode) =
      labels condition ++ labels thenCode ++ [numberedLabel "IF_FALSE" number] ++ labels elseCode ++
        [numberedLabel "IF_END" (number + 1)] := by
    have none (name : String) : labels [.operate .not, .ifGoto name] = [] := rfl
    simp only [branchCommands, labels_append, none, List.append_nil]
    rfl
  rw [own]
  refine (((((test _).append ?_).append ?_).append ?_).append ?_).append ?_
  · simp [JumpsTo, Command.target?]
  · exact thenPart.mono fun name member => by simp [member]
  · simp [JumpsTo, Command.target?]
  · exact elsePart.mono fun name member => by simp [member]
  · simp [JumpsTo, Command.target?]

/-- The jumps of a loop go to its two labels and to those of its body. -/
theorem jumpsTo_loop {number : Nat} {condition body : List Command}
    (test : ∀ names, JumpsTo names condition) (bodyPart : JumpsTo (labels body) body) :
    JumpsTo (labels (loopCommands number condition body)) (loopCommands number condition body) := by
  have own : labels (loopCommands number condition body) =
      [numberedLabel "WHILE_TOP" number] ++ labels condition ++ labels body ++
        [numberedLabel "WHILE_END" (number + 1)] := by
    have none (name : String) : labels [.operate .not, .ifGoto name] = [] := rfl
    simp only [loopCommands, labels_append, none, List.append_nil]
    rfl
  rw [own]
  have start : JumpsTo ([numberedLabel "WHILE_TOP" number] ++ labels condition ++ labels body ++
      [numberedLabel "WHILE_END" (number + 1)]) [.label (numberedLabel "WHILE_TOP" number)] :=
    .of_straight (List.forall_mem_singleton.mpr rfl)
  refine (((start.append (test _)).append ?_).append ?_).append ?_
  · simp [JumpsTo, Command.target?]
  · exact bodyPart.mono fun name member => by simp [member]
  · simp [JumpsTo, Command.target?]

mutual

/-- The jumps of a statement go to labels of the statement. -/
theorem jumpsTo_of_stmt (stmt : Stmt) {number next : Nat} {code : List Command}
    (made : stmt.commands runtime scope number = .ok (code, next)) :
    JumpsTo (labels code) code := by
  cases stmt with
  | assign target value span =>
    obtain ⟨valueCode, entry, valueMade, resolved, rfl, -⟩ := emitted_assign made
    exact (jumpsTo_of_expr valueMade).append
      (.of_straight (List.forall_mem_singleton.mpr rfl))
  | assignElement array index value span =>
    obtain ⟨entry, indexCode, valueCode, resolved, indexMade, valueMade, rfl, -⟩ :=
      emitted_assignElement made
    have base {names : List String} : JumpsTo names [entry.push] :=
      .of_straight (List.forall_mem_singleton.mpr rfl)
    have sum {names : List String} : JumpsTo names [.operate .add] :=
      .of_straight (List.forall_mem_singleton.mpr rfl)
    have store {names : List String} :
        JumpsTo names [.pop .temp 0, .pop .pointer 1, .push .temp 0, .pop .that 0] :=
      .of_straight (by simp [Command.target?])
    exact (((base.append (jumpsTo_of_expr indexMade)).append sum).append
      (jumpsTo_of_expr valueMade)).append store
  | branch condition thenBody elseBody span =>
    obtain ⟨conditionCode, thenCode, elseCode, middle, conditionMade, thenMade, elseMade, rfl⟩ :=
      emitted_branch made
    exact jumpsTo_branch (fun names => jumpsTo_of_expr conditionMade)
      (jumpsTo_of_body thenBody thenMade) (jumpsTo_of_body elseBody elseMade)
  | loop condition body span =>
    obtain ⟨conditionCode, bodyCode, conditionMade, bodyMade, rfl⟩ := emitted_loop made
    exact jumpsTo_loop (fun names => jumpsTo_of_expr conditionMade) (jumpsTo_of_body body bodyMade)
  | call receiver name args span =>
    obtain ⟨callCode, callMade, rfl, -⟩ := emitted_callStatement made
    exact (jumpsTo_of_expr callMade).append
      (.of_straight (List.forall_mem_singleton.mpr rfl))
  | leave result span =>
    cases result with
    | none =>
      obtain ⟨rfl, -⟩ := Prod.mk.inj (Except.ok.inj made)
      exact .of_straight (by simp [Command.target?])
    | some value =>
      obtain ⟨valueCode, valueMade, rfl, -⟩ := emitted_leave made
      exact (jumpsTo_of_expr valueMade).append
        (.of_straight (List.forall_mem_singleton.mpr rfl))

/-- The jumps of statements go to labels of the statements. -/
theorem jumpsTo_of_body (stmts : List Stmt) {number next : Nat} {code : List Command}
    (made : bodyCommands runtime scope number stmts = .ok (code, next)) :
    JumpsTo (labels code) code := by
  cases stmts with
  | nil =>
    obtain ⟨rfl, -⟩ := Prod.mk.inj (Except.ok.inj made)
    exact fun command member => by contradiction
  | cons stmt rest =>
    obtain ⟨own, later, middle, ownMade, laterMade, rfl⟩ := emitted_body made
    rw [labels_append]
    exact ((jumpsTo_of_stmt stmt ownMade).mono (List.subset_append_left _ _)).append
      ((jumpsTo_of_body rest laterMade).mono (List.subset_append_right _ _))

end

end Jumps

/-! ## Classes -/

section Classes

variable {runtime : RuntimeNames} {known : ClassScope} {number next : Nat} {code : List Command}

/-- The commands of subroutines are functions under the names of the subroutines, and their labels
have numbers of a range. -/
theorem functional_of_subroutines {subroutines : List Subroutine}
    (made : subroutineCommands runtime known number subroutines = .ok code) :
    Functional code ∧
      entries code = subroutines.map (fun subroutine =>
        ClassScope.qualify known.name subroutine.name.node) ∧
      ∃ high, Numbered number high (labels code) := by
  induction subroutines generalizing number code with
  | nil =>
    obtain rfl := Except.ok.inj made
    exact ⟨.nil, rfl, number, .nil⟩
  | cons subroutine rest ih =>
    obtain ⟨own, later, middle, ownMade, laterMade, rfl⟩ := emitted_subroutines made
    obtain ⟨functional, entered, high, numbered⟩ := ih laterMade
    obtain ⟨scope, body, -, bodyMade, rfl⟩ := emitted_subroutine ownMade
    have labelled := (Labelled.of_inner (inner_prologue runtime known subroutine.kind)).append
      (labelled_of_body subroutine.body bodyMade)
    have straight {names : List String} :
        JumpsTo names (prologue runtime known subroutine.kind) := by
      refine .of_straight ?_
      cases subroutine.kind <;> simp [prologue, Command.target?]
    have inside := (jumpsTo_of_body subroutine.body bodyMade).mono
      (List.subset_append_right (labels (prologue runtime known subroutine.kind)) _)
    rw [← labels_append] at inside
    have jumps := straight.append inside
    refine ⟨.function labelled.plain jumps functional, ?_, high, ?_⟩
    · rw [List.cons_append, Vm.entries_function labelled.plain, entered]
      rfl
    · rw [labels_append]
      exact labelled.numbered.append numbered

variable {cls : Class} {name : String}

/-- The functions of a class are those of its subroutines. -/
theorem entries_of_commands (made : cls.commands runtime = .ok code) :
    entries code = (cls.subroutines.map fun subroutine => subroutine.name.node).map
      (ClassScope.qualify cls.name.node) := by
  obtain ⟨known, clsMade, subroutinesMade⟩ := bind_eq_ok.mp made
  obtain ⟨-, own, -⟩ := functional_of_subroutines subroutinesMade
  rw [own, List.map_map, (knows_of_ofClass clsMade).1]
  rfl

/-- A function of a class is one of its subroutines. -/
theorem mem_entries_iff (made : cls.commands runtime = .ok code) :
    name ∈ entries code ↔ ∃ subroutine ∈ cls.subroutines,
      ClassScope.qualify cls.name.node subroutine.name.node = name := by
  rw [entries_of_commands made, List.map_map, List.mem_map]
  rfl

/-- No function of a class is there twice. -/
theorem nodup_entries (made : cls.commands runtime = .ok code) : (entries code).Nodup := by
  obtain ⟨known, clsMade, -⟩ := bind_eq_ok.mp made
  rw [entries_of_commands made]
  exact (distinct_of_ofClass clsMade).map fun _ _ => qualify_inj

end Classes

/-! ## Names of functions -/

section Names

variable {cls other name another : String}

/-- A word has no dot. -/
theorem noDot_of_isWord {text : List Char} (word : isWord text = true) : '.' ∉ text := fun member =>
  absurd (isWordChar_of_isWord word _ member) (by decide)

/-- The name of a subroutine outside its class, by its characters. -/
theorem toList_qualify (cls name : String) :
    (ClassScope.qualify cls name).toList = cls.toList ++ '.' :: name.toList := by
  rw [ClassScope.qualify, String.toList_append, String.toList_append, List.append_assoc]
  rfl

/-- The name of a subroutine outside its class is qualified. -/
theorem isQualified_qualify (word : isWord name.toList = true) :
    IsQualified (ClassScope.qualify cls name) := by
  refine ⟨cls.toList, name.toList, toList_qualify cls name, noDot_of_isWord word, ?_⟩
  cases chars : name.toList with
  | nil =>
    rw [chars] at word
    contradiction
  | cons first rest =>
    rw [chars, isWord, Bool.and_eq_true] at word
    exact ⟨first, List.mem_cons_self, isDigit_of_isWordStart word.1⟩

/-- The name of a subroutine outside its class determines the class. -/
theorem qualify_class_inj (word : isWord name.toList = true) (again : isWord another.toList = true)
    (same : ClassScope.qualify cls name = ClassScope.qualify other another) : cls = other := by
  have texts := congrArg String.toList same
  rw [toList_qualify, toList_qualify] at texts
  exact String.toList_inj.mp
    (Text.eq_of_last_mark texts (noDot_of_isWord word) (noDot_of_isWord again)).1

end Names

end JackToolchain.Jack
