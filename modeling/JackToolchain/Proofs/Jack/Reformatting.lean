import JackToolchain.Proofs.Jack.Agreement
import JackToolchain.Proofs.Jack.Places

/-!
# Reading without places

The grammar looks at lexemes and never at places: sources with the same lexemes are read as classes
that differ in places only, or refused for the same fault. As the commands of a class do not depend
on its places either, such sources are compiled alike.
-/
namespace JackToolchain.Jack

open Reader
open Vm (RuntimeNames)

/-- Lists whose items agree one by one without places agree without places. -/
theorem map_unplaced_congr {α : Type} {unplaced : α → α} {items others : List α}
    (all : List.Forall₂ (fun item other => unplaced item = unplaced other) items others) :
    items.map unplaced = others.map unplaced :=
  (map_eq_of_forall₂ (all.imp fun _ _ same => same.symm)).symm

/-- Items in parentheses agree one by one if their readers do. -/
theorem agrees_parenthesized {α : Type} {related : α → α → Prop} {item other : Reader α}
    (own : Agrees related item other) :
    Agrees (List.Forall₂ related) (parenthesizedItems item) (parenthesizedItems other) := by
  have close (items its : List α) (all : List.Forall₂ related items its) :
      Agrees (List.Forall₂ related) (expect (.symbol .parenClose) >>= fun _ => pure items)
        (expect (.symbol .parenClose) >>= fun _ => pure its) :=
    (agrees_expect _).bind fun _ _ _ => agrees_pure all
  refine (agrees_expect _).bind fun _ _ _ => agrees_peek fun found => ?_
  dsimp only
  split
  · rw [pure_bind]
    exact close [] [] .nil
  · exact (agrees_commaSeparated own).bind close

/-! ## Expressions -/

section Expressions

variable {inner inside : Reader Expr}

/-- A reader whose expressions differ in places only. -/
def AgreesExpr (reader other : Reader Expr) : Prop :=
  Agrees (fun value its => value.unplaced = its.unplaced) reader other

/-- A reader of what makes expressions that differ in places only. -/
def AgreesTerm (reader other : Reader (Span → Expr)) : Prop :=
  Agrees (fun build its => ∀ span other, (build span).unplaced = (its other).unplaced) reader other

/-- Calls that differ in places only. -/
def SameCall (call its : Option Name × Name × List Expr) : Prop :=
  call.1.map unplacedName = its.1.map unplacedName ∧
    unplacedName call.2.1 = unplacedName its.2.1 ∧
    Expr.allUnplaced call.2.2 = Expr.allUnplaced its.2.2

/-- Arguments differ in places only. -/
theorem agrees_arguments (own : AgreesExpr inner inner) :
    Agrees (fun args its => Expr.allUnplaced args = Expr.allUnplaced its) (arguments inner)
      (arguments inner) := by
  rw [arguments_eq]
  refine (agrees_parenthesized own).mono fun args its all => ?_
  rw [Expr.allUnplaced_eq_map, Expr.allUnplaced_eq_map]
  exact map_unplaced_congr all

/-- Calls after first names that differ in their places differ in places only. -/
theorem agrees_callAfter (own : AgreesExpr inner inner) {first its : Name}
    (same : first.node = its.node) :
    Agrees SameCall (callAfter inner first) (callAfter inner its) := by
  have name := unplacedName_congr same
  refine (agrees_accept _).bind ?_
  rintro taken _ rfl
  split
  · refine agrees_identifier.bind fun callee other calleeSame => ?_
    refine (agrees_arguments own).bind fun args others argsSame => agrees_pure ?_
    exact ⟨congrArg some name, unplacedName_congr calleeSame, argsSame⟩
  · exact (agrees_arguments own).bind fun args others argsSame =>
      agrees_pure ⟨rfl, name, argsSame⟩

/-- What follows names that differ in their places makes expressions that do so. -/
theorem agrees_nameTerm (own : AgreesExpr inner inner) {name its : Name}
    (same : name.node = its.node) : AgreesTerm (nameTerm inner name) (nameTerm inner its) := by
  have call : AgreesTerm
      (callAfter inner name >>= fun call => pure (.call call.1 call.2.1 call.2.2))
      (callAfter inner its >>= fun call => pure (.call call.1 call.2.1 call.2.2)) := by
    refine (agrees_callAfter own same).bind fun call its ⟨receiver, callee, args⟩ => ?_
    refine agrees_pure fun span other => ?_
    rw [Expr.unplaced, Expr.unplaced, receiver, callee, args]
  refine agrees_peek fun found => ?_
  split
  · refine agrees_advance.bind fun _ _ _ => own.bind fun index other indexSame => ?_
    refine (agrees_expect _).bind fun _ _ _ => agrees_pure fun span other => ?_
    rw [Expr.unplaced, Expr.unplaced, unplacedName_congr same, indexSame]
  · exact call
  · exact call
  · refine agrees_pure fun span other => ?_
    rw [Expr.unplaced, Expr.unplaced, same]

/-- A lexeme that is a whole expression makes the same one anywhere. -/
theorem agrees_leaf {build : Span → Expr}
    (same : ∀ span other, (build span).unplaced = (build other).unplaced) :
    AgreesTerm (leaf build) (leaf build) :=
  agrees_advance.bind fun _ _ _ => agrees_pure same

/-- Expressions without operators at their tops differ in places only. -/
theorem agrees_term (own : AgreesExpr inner inner) (ownOperand : AgreesExpr inside inside) :
    AgreesExpr (term inner inside) (term inner inside) := by
  have sign (op : UnaryOp) : AgreesTerm (advance >>= fun _ => inside >>= fun operand =>
      pure (.unary op operand)) (advance >>= fun _ => inside >>= fun operand =>
      pure (.unary op operand)) := by
    refine agrees_advance.bind fun _ _ _ => ownOperand.bind fun operand other same => ?_
    refine agrees_pure fun span other => ?_
    rw [Expr.unplaced, Expr.unplaced, same]
  refine agrees_spanned (agrees_peek fun found => ?_)
  split
  · exact agrees_leaf fun _ _ => rfl
  · exact agrees_leaf fun _ _ => rfl
  · exact agrees_leaf fun _ _ => rfl
  · exact agrees_leaf fun _ _ => rfl
  · exact agrees_leaf fun _ _ => rfl
  · exact agrees_leaf fun _ _ => rfl
  · refine agrees_advance.bind fun _ _ _ => own.bind fun value other same => ?_
    refine (agrees_expect _).bind fun _ _ _ => agrees_pure fun span other => ?_
    rw [Expr.unplaced, Expr.unplaced, same]
  · exact sign .neg
  · exact sign .not
  · exact agrees_identifier.bind fun name other same => agrees_nameTerm own same
  · exact agrees_refuse _

/-- Operators are accepted alike. -/
theorem agrees_acceptOperator (floor : Nat) :
    Agrees Eq (acceptOperator floor) (acceptOperator floor) := by
  refine agrees_peek fun found => ?_
  split
  · split
    · exact agrees_advance.bind fun _ _ _ => agrees_pure rfl
    · exact agrees_pure rfl
  · exact agrees_pure rfl

/-- The readers of expressions make expressions that differ in places only, at every level. -/
theorem agrees_levels (levels : Nat) :
    AgreesExpr (expression levels) (expression levels) ∧
      AgreesExpr (operand levels) (operand levels) ∧
      ∀ floor left its, left.unplaced = its.unplaced →
        AgreesExpr (operators levels floor left) (operators levels floor its) := by
  induction levels with
  | zero =>
    refine ⟨?_, ?_, fun floor left its same => ?_⟩
    · rw [expression]
      exact agrees_refuse _
    · rw [operand]
      exact agrees_refuse _
    · rw [operators, operators]
      refine (agrees_acceptOperator floor).bind ?_
      rintro op _ rfl
      cases op with
      | none => exact agrees_pure same
      | some op => exact agrees_refuse _
  | succ levels ih =>
    obtain ⟨whole, sign, chain⟩ := ih
    have first := agrees_term whole sign
    refine ⟨?_, ?_, fun floor left its same => ?_⟩
    · rw [expression]
      exact first.bind fun value other valueSame => chain 0 value other valueSame
    · rw [operand]
      exact first
    · rw [operators, operators]
      refine (agrees_acceptOperator floor).bind ?_
      rintro op _ rfl
      cases op with
      | none => exact agrees_pure same
      | some op =>
        refine first.bind fun value other valueSame => ?_
        refine (chain op.rightPower value other valueSame).bind fun right others rightSame => ?_
        refine chain floor _ _ ?_
        rw [Expr.unplaced, Expr.unplaced, same, rightSame]

end Expressions

/-! ## Statements -/

section Statements

variable {inner : Reader Expr} {body : Reader (List Stmt)}

/-- A reader whose statements differ in places only. -/
def AgreesBody (reader : Reader (List Stmt)) : Prop :=
  Agrees (fun stmts its => Stmt.allUnplaced stmts = Stmt.allUnplaced its) reader reader

/-- A reader of what makes statements that differ in places only. -/
def AgreesStmt (reader other : Reader (Span → Stmt)) : Prop :=
  Agrees (fun build its => ∀ span other, (build span).unplaced = (its other).unplaced) reader other

/-- Conditions differ in places only. -/
theorem agrees_condition (own : AgreesExpr inner inner) :
    AgreesExpr (condition inner) (condition inner) :=
  (agrees_expect _).bind fun _ _ _ => own.bind fun _ _ same =>
    (agrees_expect _).bind fun _ _ _ => agrees_pure same

/-- Assignments differ in places only. -/
theorem agrees_assignment (own : AgreesExpr inner inner) : AgreesStmt (assignment inner) (assignment inner) := by
  refine agrees_identifier.bind fun target other targetSame => ?_
  have name := unplacedName_congr targetSame
  have close {last its : Expr → Reader (Span → Stmt)}
      (ends : ∀ value other : Expr, value.unplaced = other.unplaced →
        AgreesStmt (last value) (its other)) :
      AgreesStmt
        (do
          expect (.symbol .equals)
          let value ← inner
          expect (.symbol .semicolon)
          last value)
        (do
          expect (.symbol .equals)
          let value ← inner
          expect (.symbol .semicolon)
          its value) :=
    (agrees_expect _).bind fun _ _ _ => own.bind fun value other same =>
      (agrees_expect _).bind fun _ _ _ => ends value other same
  refine (agrees_accept _).bind ?_
  rintro taken _ rfl
  cases taken with
  | true =>
    refine own.bind fun index indexOther indexSame => (agrees_expect _).bind fun _ _ _ => ?_
    rw [pure_bind, pure_bind]
    refine close fun value valueOther valueSame => agrees_pure fun span spanOther => ?_
    rw [Stmt.unplaced, Stmt.unplaced, name, indexSame, valueSame]
  | false =>
    dsimp only
    rw [pure_bind, pure_bind]
    refine close fun value valueOther valueSame => agrees_pure fun span spanOther => ?_
    rw [Stmt.unplaced, Stmt.unplaced, name, valueSame]

/-- Branches differ in places only. -/
theorem agrees_branch (own : AgreesExpr inner inner) (block : AgreesBody body) :
    AgreesStmt (branch inner body) (branch inner body) := by
  refine (agrees_condition own).bind fun test testOther testSame => ?_
  refine block.bind fun thenBody thenOther thenSame => (agrees_accept _).bind ?_
  rintro taken _ rfl
  have close (elseBody its : List Stmt)
      (same : Stmt.allUnplaced elseBody = Stmt.allUnplaced its) :
      AgreesStmt (pure (.branch test thenBody elseBody)) (pure (.branch testOther thenOther its)) := by
    refine agrees_pure fun span other => ?_
    rw [Stmt.unplaced, Stmt.unplaced, testSame, thenSame, same]
  cases taken with
  | true => exact block.bind close
  | false =>
    dsimp only
    rw [pure_bind, pure_bind]
    exact close [] [] rfl

/-- Loops differ in places only. -/
theorem agrees_loop (own : AgreesExpr inner inner) (block : AgreesBody body) :
    AgreesStmt (loop inner body) (loop inner body) := by
  refine (agrees_condition own).bind fun test testOther testSame => ?_
  refine block.bind fun stmts its same => agrees_pure fun span other => ?_
  rw [Stmt.unplaced, Stmt.unplaced, testSame, same]

/-- Call statements differ in places only. -/
theorem agrees_callStatement (own : AgreesExpr inner inner) : AgreesStmt (callStatement inner) (callStatement inner) := by
  refine agrees_identifier.bind fun name other nameSame => ?_
  refine (agrees_callAfter own nameSame).bind fun call its ⟨receiver, callee, args⟩ => ?_
  refine (agrees_expect _).bind fun _ _ _ => agrees_pure fun span other => ?_
  rw [Stmt.unplaced, Stmt.unplaced, receiver, callee, args]

/-- Return statements differ in places only. -/
theorem agrees_returnStatement (own : AgreesExpr inner inner) :
    AgreesStmt (returnStatement inner) (returnStatement inner) := by
  have close (result its : Option Expr) (same : result.map Expr.unplaced = its.map Expr.unplaced) :
      AgreesStmt (expect (.symbol .semicolon) >>= fun _ => pure (.leave result))
        (expect (.symbol .semicolon) >>= fun _ => pure (.leave its)) := by
    refine (agrees_expect _).bind fun _ _ _ => agrees_pure fun span other => ?_
    rw [Stmt.unplaced, Stmt.unplaced, same]
  refine agrees_peek fun found => ?_
  dsimp only
  split
  · rw [pure_bind]
    exact close none none rfl
  · refine own.bind fun value other same => ?_
    rw [pure_bind, pure_bind]
    exact close _ _ (congrArg some same)

/-- Statements differ in places only. -/
theorem agrees_statement (own : AgreesExpr inner inner) (block : AgreesBody body) :
    Agrees (fun stmt its => stmt.unplaced = its.unplaced) (statement inner body)
      (statement inner body) := by
  refine agrees_spanned (agrees_peek fun found => ?_)
  split
  · exact agrees_advance.bind fun _ _ _ => agrees_assignment own
  · exact agrees_advance.bind fun _ _ _ => agrees_branch own block
  · exact agrees_advance.bind fun _ _ _ => agrees_loop own block
  · exact agrees_advance.bind fun _ _ _ => agrees_callStatement own
  · exact agrees_advance.bind fun _ _ _ => agrees_returnStatement own
  · exact agrees_refuse _

/-- Lists of statements differ in places only. -/
theorem agrees_statementsWith {item : Reader Stmt}
    (own : Agrees (fun stmt its => stmt.unplaced = its.unplaced) item item) :
    AgreesBody (statementsWith item) :=
  (agrees_repeat _ own).mono fun stmts its all => by
    rw [Stmt.allUnplaced_eq_map, Stmt.allUnplaced_eq_map]
    exact map_unplaced_congr all

/-- Blocks differ in places only, at every level. -/
theorem agrees_block (levels : Nat) : AgreesBody (block levels) := by
  induction levels with
  | zero =>
    rw [block]
    exact (agrees_expect _).bind fun _ _ _ => agrees_refuse _
  | succ levels ih =>
    rw [block]
    refine (agrees_expect _).bind fun _ _ _ => ?_
    refine (agrees_statementsWith (agrees_statement (agrees_levels levels).1 ih)).bind ?_
    exact fun stmts its same => (agrees_expect _).bind fun _ _ _ => agrees_pure same

/-- The statements of a subroutine differ in places only. -/
theorem agrees_statements (levels : Nat) : AgreesBody (statements levels) :=
  agrees_statementsWith (agrees_statement (agrees_levels levels).1 (agrees_block levels))

end Statements

/-! ## Classes -/

section Classes

/-- Types do not have places. -/
theorem agrees_typeName : Agrees Eq typeName typeName := by
  have close (type its : JackType) (same : type = its) :
      Agrees Eq (advance >>= fun _ => pure type) (advance >>= fun _ => pure its) :=
    agrees_advance.bind fun _ _ _ => agrees_pure same
  have known (type : JackType) : Agrees Eq (pure type) (pure type) := agrees_pure rfl
  refine agrees_peek fun found => ?_
  dsimp only
  split
  · exact (known _).bind close
  · exact (known _).bind close
  · exact (known _).bind close
  · exact (known _).bind close
  · exact (agrees_refuse _).bind close

/-- Declared names differ in their places only. -/
theorem agrees_declaredNames :
    Agrees (List.Forall₂ fun name its => name.node = its.node) declaredNames declaredNames :=
  (agrees_commaSeparated agrees_identifier).bind fun _ _ all =>
    (agrees_expect _).bind fun _ _ _ => agrees_pure all

/-- Class variables differ in places only. -/
theorem agrees_classVariables :
    Agrees (fun items its => items.map ClassVariable.unplaced = its.map ClassVariable.unplaced)
      classVariables classVariables := by
  refine agrees_peek fun found => agrees_advance.bind fun _ _ _ => agrees_typeName.bind ?_
  rintro type _ rfl
  refine agrees_declaredNames.bind fun names its all => agrees_pure (map_unplaced_congr ?_)
  rw [List.forall₂_map_left_iff, List.forall₂_map_right_iff]
  exact all.imp fun name other same => congrArg (ClassVariable.mk _ type) (unplacedName_congr same)

/-- Local variables differ in places only. -/
theorem agrees_localVariables :
    Agrees (fun items its => items.map Variable.unplaced = its.map Variable.unplaced)
      localVariables localVariables := by
  refine (agrees_expect _).bind fun _ _ _ => agrees_typeName.bind ?_
  rintro type _ rfl
  refine agrees_declaredNames.bind fun names its all => agrees_pure (map_unplaced_congr ?_)
  rw [List.forall₂_map_left_iff, List.forall₂_map_right_iff]
  exact all.imp fun name other same => congrArg (Variable.mk type) (unplacedName_congr same)

/-- Parameters differ in places only. -/
theorem agrees_parameters :
    Agrees (fun items its => items.map Variable.unplaced = its.map Variable.unplaced) parameters
      parameters := by
  have one : Agrees (fun item its => item.unplaced = its.unplaced) parameter parameter := by
    refine agrees_typeName.bind ?_
    rintro type _ rfl
    exact agrees_identifier.bind fun name other same =>
      agrees_pure (congrArg (Variable.mk type) (unplacedName_congr same))
  rw [parameters_eq]
  exact (agrees_parenthesized one).mono fun _ _ => map_unplaced_congr

/-- Lists that are joined from parts agree without places if the parts do. -/
theorem map_flatten_congr {α : Type} {unplaced : α → α} {lists others : List (List α)}
    (all : List.Forall₂ (fun items its => items.map unplaced = its.map unplaced) lists others) :
    lists.flatten.map unplaced = others.flatten.map unplaced := by
  rw [List.map_flatten, List.map_flatten]
  refine congrArg List.flatten ?_
  rw [← List.forall₂_eq_eq_eq, List.forall₂_map_left_iff, List.forall₂_map_right_iff]
  exact all

/-- What stands behind the kind and the result of a subroutine differs in places only. -/
theorem agrees_subroutineAfter (kind : SubroutineKind) (result : JackType) :
    Agrees (fun own its => own.unplaced = its.unplaced) (subroutineAfter kind result)
      (subroutineAfter kind result) := by
  refine agrees_identifier.bind fun name other nameSame => ?_
  refine agrees_parameters.bind fun params paramsOther paramsSame => ?_
  refine (agrees_expect _).bind fun _ _ _ => ?_
  refine (agrees_repeat _ agrees_localVariables).bind fun locals localsOther all => ?_
  refine (agrees_statements _).bind fun body bodyOther bodySame => ?_
  refine (agrees_expect _).bind fun _ _ _ => agrees_pure ?_
  rw [Subroutine.unplaced, Subroutine.unplaced, unplacedName_congr nameSame, paramsSame,
    map_flatten_congr all, bodySame]

/-- Subroutines differ in places only. -/
theorem agrees_subroutine :
    Agrees (fun own its => own.unplaced = its.unplaced) subroutine subroutine := by
  rw [subroutine_eq]
  refine agrees_peek fun found => agrees_advance.bind fun _ _ _ => (agrees_accept _).bind ?_
  rintro nothing _ rfl
  cases nothing with
  | true => exact agrees_subroutineAfter _ .void
  | false =>
    refine agrees_typeName.bind ?_
    rintro result _ rfl
    exact agrees_subroutineAfter _ result

/-- Classes differ in places only. -/
theorem agrees_classDeclaration :
    Agrees (fun cls its => cls.unplaced = its.unplaced) classDeclaration classDeclaration := by
  refine (agrees_expect _).bind fun _ _ _ => agrees_identifier.bind fun name other nameSame => ?_
  refine (agrees_expect _).bind fun _ _ _ => ?_
  refine (agrees_repeat _ agrees_classVariables).bind fun vars varsOther varsAll => ?_
  refine (agrees_repeat _ agrees_subroutine).bind fun subroutines others all => ?_
  refine (agrees_expect _).bind fun _ _ _ => agrees_pure ?_
  rw [Class.unplaced, Class.unplaced, unplacedName_congr nameSame, map_flatten_congr varsAll,
    map_unplaced_congr all]

/-- Whole classes differ in places only. -/
theorem agrees_wholeClass :
    Agrees (fun cls its => cls.unplaced = its.unplaced) wholeClass wholeClass := by
  refine agrees_classDeclaration.bind fun cls its same => agrees_peek fun found => ?_
  have name := congrArg (fun cls : Class => cls.name.node) same
  change cls.name.node = its.name.node at name
  split
  · exact agrees_pure same
  · rw [name]
    exact (agrees_refuse _).bind fun _ _ (_ : True) => agrees_pure same

end Classes

/-! ## Sources -/

section Sources

variable {first second : String} {tokens others : List (Spanned Lexeme)}

/-- Sources with the same lexemes are read as classes that differ in places only, or refused for the
same fault. -/
theorem readClass_alike (scanned : scan first = .ok tokens) (scannedOther : scan second = .ok others)
    (same : tokens.map Spanned.node = others.map Spanned.node) :
    Alike (fun cls its => cls.unplaced = its.unplaced) (readClass first) (readClass second) := by
  rw [readClass, readClass, scanned, scannedOther]
  exact (agrees_wholeClass ⟨tokens, .nowhere⟩ ⟨others, .nowhere⟩ same).bind
    fun own theirs both => .ok both.1

/-- Sources with the same lexemes are compiled to the same commands, or refused for the same
fault. -/
theorem compile_alike (runtime : RuntimeNames) (scanned : scan first = .ok tokens)
    (scannedOther : scan second = .ok others)
    (same : tokens.map Spanned.node = others.map Spanned.node) :
    (compile runtime first).mapError Spanned.node =
      (compile runtime second).mapError Spanned.node := by
  refine Alike.eq_iff.mp ((readClass_alike scanned scannedOther same).bind fun cls its unplaced => ?_)
  rw [Alike.eq_iff, ← cls.commands_unplaced, unplaced, its.commands_unplaced]

end Sources

end JackToolchain.Jack
