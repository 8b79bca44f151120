import JackToolchain.Proofs.Assembly.Reading
import JackToolchain.Proofs.Jack.Origins
import JackToolchain.Proofs.Vm.Routine

/-!
# Labels of compiled statements

The labels of statements have the numbers from the first one that was free to the next one that is,
each of them once, so no two labels are alike. The commands of expressions have no labels, and a
function has no entry but its first command.
-/
namespace JackToolchain

open Vm.Routine (labels labelName? labels_append)

/-- Whether a command is neither a label nor the entry of a function. -/
def Vm.Command.isInner : Vm.Command → Bool
  | .label _ | .function _ _ => false
  | _ => true

/-- Whether a command only works on the stack: it marks no place, and the next command is the one
behind it. -/
def Vm.Command.isStraight : Vm.Command → Bool
  | .operate _ | .push _ _ | .pop _ _ | .call _ _ => true
  | .label _ | .goto _ | .ifGoto _ | .function _ _ | .return => false

namespace Jack

open Vm (Command RuntimeNames)

/-! ## Numbers of labels -/

section Numbers

variable {low middle high number : Nat} {front back names : List String}

/-- A label determines its number. -/
theorem numberedLabel_inj {stem other : String} {number another : Nat}
    (same : numberedLabel stem number = numberedLabel other another) : number = another := by
  have text (stem : String) (number : Nat) : (numberedLabel stem number).toList =
      stem.toList ++ '_' :: number.repr.toList := by
    rw [numberedLabel, String.toList_append, String.toList_append, List.append_assoc]
    rfl
  have noMark (number : Nat) : '_' ∉ number.repr.toList := fun member =>
    absurd (Assembly.isDigit_of_mem_repr member) (by decide)
  have texts := congrArg String.toList same
  rw [text, text] at texts
  have digits := (Text.eq_of_last_mark texts (noMark number) (noMark another)).2
  exact Assembly.repr_inj (String.toList_inj.mp digits)

/-- Labels have numbers of a range, each at most once. -/
structure Numbered (low high : Nat) (names : List String) : Prop where
  /-- The range. -/
  ordered : low ≤ high
  /-- Every label has a number of the range. -/
  within : ∀ name ∈ names,
    ∃ stem number, low ≤ number ∧ number < high ∧ name = numberedLabel stem number
  /-- No label is there twice. -/
  distinct : names.Nodup

/-- No labels take no numbers. -/
theorem Numbered.nil : Numbered number number [] :=
  ⟨Nat.le_refl number, fun name member => by contradiction, List.nodup_nil⟩

/-- One label takes one number. -/
theorem Numbered.singleton (stem : String) :
    Numbered number (number + 1) [numberedLabel stem number] := by
  refine ⟨Nat.le_succ number, fun name member => ?_, List.pairwise_singleton _ _⟩
  exact ⟨stem, number, Nat.le_refl number, Nat.lt_succ_self number, List.mem_singleton.mp member⟩

/-- Labels of consecutive ranges. -/
theorem Numbered.append (first : Numbered low middle front)
    (second : Numbered middle high back) : Numbered low high (front ++ back) := by
  have lower := first.ordered
  have upper := second.ordered
  refine ⟨by omega, fun name member => ?_, ?_⟩
  · rcases List.mem_append.mp member with own | own
    · obtain ⟨stem, number, above, below, rfl⟩ := first.within name own
      exact ⟨stem, number, above, by omega, rfl⟩
    · obtain ⟨stem, number, above, below, rfl⟩ := second.within name own
      exact ⟨stem, number, by omega, below, rfl⟩
  · refine List.nodup_append.mpr ⟨first.distinct, second.distinct, ?_⟩
    intro name inFront other inBack same
    obtain ⟨stem, number, _, below, rfl⟩ := first.within name inFront
    obtain ⟨otherStem, another, above, _, rfl⟩ := second.within other inBack
    have equal := numberedLabel_inj same
    omega

/-- The order of labels does not matter. -/
theorem Numbered.perm (numbered : Numbered low high front) (same : front.Perm back) :
    Numbered low high back :=
  ⟨numbered.ordered, fun name member => numbered.within name (same.mem_iff.mpr member),
    same.nodup_iff.mp numbered.distinct⟩

end Numbers

/-! ## Code -/

section Code

variable {low middle high number : Nat} {code front back : List Command}

/-- Commands of a body: the labels have numbers of a range, and no command is an entry. -/
structure Labelled (low high : Nat) (code : List Command) : Prop where
  /-- The labels. -/
  numbered : Numbered low high (labels code)
  /-- There is no entry. -/
  plain : ∀ command ∈ code, command.isEntry = false

/-- Inner commands have no labels. -/
theorem labels_of_inner (inner : code.all Command.isInner = true) : labels code = [] := by
  refine List.filterMap_eq_nil_iff.mpr fun command member => ?_
  have own := List.all_eq_true.mp inner command member
  cases command <;> first | rfl | contradiction

/-- Inner commands take no numbers. -/
theorem Labelled.of_inner (inner : code.all Command.isInner = true) :
    Labelled number number code := by
  refine ⟨labels_of_inner inner ▸ .nil, fun command member => ?_⟩
  have own := List.all_eq_true.mp inner command member
  cases command <;> first | rfl | contradiction

/-- A label takes one number. -/
theorem Labelled.label (stem : String) :
    Labelled number (number + 1) [.label (numberedLabel stem number)] :=
  ⟨.singleton stem, fun _ member => List.mem_singleton.mp member ▸ rfl⟩

/-- Consecutive commands. -/
theorem Labelled.append (first : Labelled low middle front)
    (second : Labelled middle high back) : Labelled low high (front ++ back) :=
  ⟨labels_append front back ▸ first.numbered.append second.numbered,
    List.forall_mem_append.mpr ⟨first.plain, second.plain⟩⟩

/-- The order of commands does not matter. -/
theorem Labelled.perm (labelled : Labelled low high front) (same : front.Perm back) :
    Labelled low high back :=
  ⟨labelled.numbered.perm (same.filterMap labelName?),
    fun command member => labelled.plain command (same.mem_iff.mpr member)⟩

end Code

/-! ## Expressions -/

section Expressions

variable {runtime : RuntimeNames} {scope : Scope} {code : List Command}

/-- The commands of an expression by itself are straight. -/
theorem straight_of_own (part : Expr) :
    (part.own runtime scope).all Command.isStraight = true := by
  have known (name : String) :
      (((scope.lookup? name).map Entry.push).toList).all Command.isStraight = true := by
    cases scope.lookup? name <;> rfl
  cases part with
  | binary op left right span => cases op <;> rfl
  | unary op operand span => cases op <;> rfl
  | string content span =>
    rw [Expr.own, stringCommands, List.all_append, List.all_flatMap]
    exact List.all_eq_true.mpr fun _ _ => rfl
  | boolean value span => cases value <;> rfl
  | «variable» name span => exact known name
  | element array index span =>
    rw [Expr.own, List.all_append, known]
    rfl
  | call receiver name args span =>
    rw [Expr.own]
    split
    · rename_i callee made
      obtain ⟨_, _, _, _, rfl⟩ | ⟨_, _, _, rfl⟩ | ⟨-, rfl⟩ | ⟨-, rfl⟩ :=
        callee_cases made <;> rfl
    · rfl
  | _ => rfl

/-- The commands of an expression are straight. -/
theorem straight_of_expr (expr : Expr) (made : expr.commands runtime scope = .ok code) :
    code.all Command.isStraight = true := by
  refine List.all_eq_true.mpr fun command member => ?_
  obtain ⟨part, -, own⟩ := madeBy_of_expr expr made command member
  exact List.all_eq_true.mp (straight_of_own part) command own

/-- The commands of an expression are inner ones. -/
theorem inner_of_expr (expr : Expr) (made : expr.commands runtime scope = .ok code) :
    code.all Command.isInner = true := by
  refine List.all_eq_true.mpr fun command member => ?_
  have straight := List.all_eq_true.mp (straight_of_expr expr made) command member
  cases command <;> first | rfl | contradiction

end Expressions

/-! ## Statements -/

section Statements

variable {runtime : RuntimeNames} {scope : Scope}

/-- The two labels of a branch have the first numbers of its range. -/
theorem labelled_branch {number middle next : Nat} {condition thenCode elseCode : List Command}
    (inner : condition.all Command.isInner = true)
    (thenPart : Labelled (number + 2) middle thenCode) (elsePart : Labelled middle next elseCode) :
    Labelled number next (branchCommands number condition thenCode elseCode) := by
  let test : List Command := [.operate .not, .ifGoto (numberedLabel "IF_FALSE" number)]
  let leave : List Command := [.goto (numberedLabel "IF_END" (number + 1))]
  have rest : (condition ++ test ++ leave).all Command.isInner = true := by
    rw [List.all_append, List.all_append, inner]
    rfl
  -- Both numbers are taken before those of the bodies, but the labels stand between them.
  have ordered := ((Labelled.label "IF_FALSE").append (.label "IF_END")).append
    ((thenPart.append elsePart).append (.of_inner rest))
  refine ordered.perm (List.perm_iff_count.mpr fun command => ?_)
  simp only [branchCommands, test, leave, List.count_append, List.count_cons, List.count_nil]
  omega

/-- The two labels of a loop have the first numbers of its range. -/
theorem labelled_loop {number next : Nat} {condition body : List Command}
    (inner : condition.all Command.isInner = true) (bodyPart : Labelled (number + 2) next body) :
    Labelled number next (loopCommands number condition body) := by
  let test : List Command := [.operate .not, .ifGoto (numberedLabel "WHILE_END" (number + 1))]
  let again : List Command := [.goto (numberedLabel "WHILE_TOP" number)]
  have rest : (condition ++ test ++ again).all Command.isInner = true := by
    rw [List.all_append, List.all_append, inner]
    rfl
  have ordered := ((Labelled.label "WHILE_TOP").append (.label "WHILE_END")).append
    (bodyPart.append (.of_inner rest))
  refine ordered.perm (List.perm_iff_count.mpr fun command => ?_)
  simp only [loopCommands, test, again, List.count_append, List.count_cons, List.count_nil]
  omega

mutual

/-- The labels of a statement have the numbers up to the next free one. -/
theorem labelled_of_stmt (stmt : Stmt) {number next : Nat} {code : List Command}
    (made : stmt.commands runtime scope number = .ok (code, next)) :
    Labelled number next code := by
  cases stmt with
  | assign target value span =>
    obtain ⟨valueCode, entry, valueMade, resolved, rfl, rfl⟩ := emitted_assign made
    refine .of_inner ?_
    rw [List.all_append, inner_of_expr value valueMade]
    rfl
  | assignElement array index value span =>
    obtain ⟨entry, indexCode, valueCode, resolved, indexMade, valueMade, rfl, rfl⟩ :=
      emitted_assignElement made
    refine .of_inner ?_
    rw [List.all_append, List.all_append, List.all_append, List.all_append,
      inner_of_expr index indexMade, inner_of_expr value valueMade]
    rfl
  | branch condition thenBody elseBody span =>
    obtain ⟨conditionCode, thenCode, elseCode, middle, conditionMade, thenMade, elseMade, rfl⟩ :=
      emitted_branch made
    have inner := inner_of_expr condition conditionMade
    have thenPart := labelled_of_body thenBody thenMade
    have elsePart := labelled_of_body elseBody elseMade
    exact labelled_branch inner thenPart elsePart
  | loop condition body span =>
    obtain ⟨conditionCode, bodyCode, conditionMade, bodyMade, rfl⟩ := emitted_loop made
    have inner := inner_of_expr condition conditionMade
    exact labelled_loop inner (labelled_of_body body bodyMade)
  | call receiver name args span =>
    obtain ⟨callCode, callMade, rfl, rfl⟩ := emitted_callStatement made
    refine .of_inner ?_
    rw [List.all_append, inner_of_expr _ callMade]
    rfl
  | leave result span =>
    cases result with
    | none =>
      obtain ⟨rfl, rfl⟩ := Prod.mk.inj (Except.ok.inj made)
      exact .of_inner rfl
    | some value =>
      obtain ⟨valueCode, valueMade, rfl, rfl⟩ := emitted_leave made
      refine .of_inner ?_
      rw [List.all_append, inner_of_expr value valueMade]
      rfl

/-- The labels of statements have the numbers up to the next free one. -/
theorem labelled_of_body (stmts : List Stmt) {number next : Nat} {code : List Command}
    (made : bodyCommands runtime scope number stmts = .ok (code, next)) :
    Labelled number next code := by
  cases stmts with
  | nil =>
    obtain ⟨rfl, rfl⟩ := Prod.mk.inj (Except.ok.inj made)
    exact .of_inner rfl
  | cons stmt rest =>
    obtain ⟨stmtCode, restCode, middle, stmtMade, restMade, rfl⟩ := emitted_body made
    exact (labelled_of_stmt stmt stmtMade).append (labelled_of_body rest restMade)

end

end Statements

end Jack

end JackToolchain
