import JackToolchain.Proofs.Jack.Recognition
import JackToolchain.Proofs.Jack.Spellable

/-!
# Levels that are left

A reader for expressions, statements or blocks gets the number of levels that are left, and what it
reads takes no more than these. In a chain of operators every operator takes a level from what
comes after it, so the levels that are left for the rest of a chain count from the operators that
are already folded.
-/
namespace JackToolchain.Jack

open Reader

/-! ## Expressions -/

section Expressions

variable {inner inside : Reader Expr} {levels : Nat}

/-- Expressions that take no more levels than there are, their own included. -/
def Within (levels : Nat) (_ : List Lexeme) (expr : Expr) : Prop := expr.levels < levels

/-- Such expressions that are no bare binary operation. -/
def WithinTerm (levels : Nat) (_ : List Lexeme) (expr : Expr) : Prop :=
  expr.levels < levels ∧ expr.folds = 0

/-- Expressions take no more levels than there are if each of them does. -/
theorem Expr.allLevels_le {args : List Expr} (each : ∀ arg ∈ args, arg.levels < levels) :
    Expr.allLevels args ≤ levels := by
  induction args with
  | nil => exact Nat.zero_le levels
  | cons arg rest ih =>
    have first := each arg List.mem_cons_self
    have others := ih fun other member => each other (List.mem_cons_of_mem _ member)
    exact Nat.max_le.mpr ⟨first, others⟩

/-- What holds of each part of a list holds of its values. -/
theorem forall_mem_of_parts {α : Type} {good : α → Prop} {parts : List (List Lexeme)}
    {values : List α} (each : List.Forall₂ (fun _ value => good value) parts values) :
    ∀ value ∈ values, good value := by
  induction each with
  | nil => exact fun value member => by contradiction
  | cons head _ ih => exact List.forall_mem_cons.mpr ⟨head, ih⟩

/-- The arguments of a call. -/
theorem arguments_within (own : Takes (Within levels) inner) :
    Takes (fun _ args => Expr.allLevels args ≤ levels) (arguments inner) := by
  rw [arguments_eq]
  refine (takes_parenthesized own).weaken ?_
  rintro _ args ⟨parts, each, -⟩
  exact Expr.allLevels_le (forall_mem_of_parts each)

/-- A call after its first name. -/
theorem callAfter_within (own : Takes (Within levels) inner) (first : Name) :
    Takes (fun _ call => Expr.allLevels call.2.2 ≤ levels) (callAfter inner first) := by
  refine (takes_accept (by simp)).bind fun _ there _ => ?_
  cases there with
  | true =>
    refine takes_identifier.bind fun _ callee _ => ?_
    exact (arguments_within own).bind fun _ args fits => takes_pure fits
  | false => exact (arguments_within own).bind fun _ args fits => takes_pure fits

/-- An expression without operators at its top is built from parts that have one level less. -/
theorem term_within (own : Takes (Within levels) inner)
    (ownOperand : Takes (WithinTerm levels) inside) :
    Takes (WithinTerm (levels + 1)) (term inner inside) := by
  have leaf {found : Lexeme} (some : found ≠ .eof) {build : Span → Expr}
      (flat : ∀ span, (build span).levels = 0 ∧ (build span).folds = 0) :
      TakesFrom found (fun _ build => ∀ span, WithinTerm (levels + 1) [] (build span))
        (leaf build) := by
    apply takesFrom_advance some
    exact takes_pure fun span => ⟨by have zero := (flat span).1; omega, (flat span).2⟩
  have sign (op : UnaryOp) : TakesFrom (.symbol op.symbol)
      (fun _ build => ∀ span, WithinTerm (levels + 1) [] (build span))
      (Reader.advance >>= fun _ => inside >>= fun operand => pure (Expr.unary op operand)) := by
    refine takesFrom_advance (by simp) (ownOperand.bind fun _ operand fits => ?_)
    exact takes_pure fun span => ⟨Nat.succ_lt_succ fits.1, rfl⟩
  have call (name : Name) : Takes
      (fun _ build => ∀ span, WithinTerm (levels + 1) [] (build span))
      (callAfter inner name >>= fun call => pure (Expr.call call.1 call.2.1 call.2.2)) := by
    refine (callAfter_within own name).bind fun _ call fits => ?_
    exact takes_pure fun span => ⟨Nat.lt_succ_of_le fits, rfl⟩
  refine takes_spanned (takes_peek fun found => ?_)
  split
  · exact leaf (by simp) fun span => ⟨rfl, rfl⟩
  · exact leaf (by simp) fun span => ⟨rfl, rfl⟩
  · exact leaf (by simp) fun span => ⟨rfl, rfl⟩
  · exact leaf (by simp) fun span => ⟨rfl, rfl⟩
  · exact leaf (by simp) fun span => ⟨rfl, rfl⟩
  · exact leaf (by simp) fun span => ⟨rfl, rfl⟩
  · refine takesFrom_advance (by simp) (own.bind fun _ value fits => ?_)
    refine (takes_expect (by simp)).bind fun _ _ _ => takes_pure fun span => ?_
    exact ⟨Nat.succ_lt_succ fits, rfl⟩
  · exact sign .neg
  · exact sign .not
  · refine (takes_identifier.bind fun _ name _ => takes_peek fun next => ?_).from
    split
    · refine takesFrom_advance (by simp) (own.bind fun _ index fits => ?_)
      refine (takes_expect (by simp)).bind fun _ _ _ => takes_pure fun span => ?_
      exact ⟨Nat.succ_lt_succ fits, rfl⟩
    · exact (call name).from
    · exact (call name).from
    · exact Takes.from (takes_pure fun span => ⟨Nat.succ_pos levels, rfl⟩)
  · exact takes_refuse.from

/-- An operator may be taken. -/
theorem takes_acceptOperator (floor : Nat) : Takes (fun _ _ => True) (acceptOperator floor) := by
  refine takes_peek fun found => ?_
  split
  · rename_i op same
    split
    · obtain rfl := BinaryOp.ofLexeme?_eq_some.mp same
      exact takesFrom_advance (by simp) (takes_pure trivial)
    · exact Takes.from (takes_pure trivial)
  · exact Takes.from (takes_pure trivial)

/-- The readers of expressions read what takes no more levels than are left. In front of the rest of
a chain, the levels that are left come on top of the operators that are folded. -/
theorem levels_within (levels : Nat) :
    Takes (Within levels) (expression levels) ∧ Takes (WithinTerm levels) (operand levels) ∧
      ∀ floor left, left.levels ≤ left.folds + levels →
        Takes (fun _ value => value.levels ≤ left.folds + levels)
          (operators levels floor left) := by
  induction levels with
  | zero =>
    refine ⟨?_, ?_, fun floor left fits => ?_⟩
    · rw [expression]
      exact takes_refuse
    · rw [operand]
      exact takes_refuse
    · rw [operators]
      refine (takes_acceptOperator floor).bind fun _ op _ => ?_
      cases op with
      | none => exact takes_pure fits
      | some op => exact takes_refuse
  | succ levels ih =>
    obtain ⟨whole, sign, chain⟩ := ih
    have first := term_within whole sign
    refine ⟨?_, ?_, fun floor left fits => ?_⟩
    · rw [expression]
      refine first.bind fun _ start flat => ?_
      have own : start.levels ≤ start.folds + levels := by
        have bound := flat.1
        omega
      refine (chain 0 start own).weaken fun _ value bound => ?_
      rw [flat.2, Nat.zero_add] at bound
      exact Nat.lt_succ_of_le bound
    · rw [operand]
      exact first
    · rw [operators]
      refine (takes_acceptOperator floor).bind fun _ op _ => ?_
      cases op with
      | none => exact takes_pure fits
      | some op =>
        refine first.bind fun _ start flat => ?_
        have own : start.levels ≤ start.folds + levels := by
          have bound := flat.1
          omega
        refine (chain op.rightPower start own).bind fun _ right bound => ?_
        rw [flat.2, Nat.zero_add] at bound
        have folded (span : Span) : (Expr.binary op left right span).levels ≤
            (Expr.binary op left right span).folds + levels := by
          rw [Expr.levels, Expr.folds]
          omega
        refine (chain floor _ (folded _)).weaken fun _ value bound => ?_
        rw [Expr.folds] at bound
        omega

end Expressions

/-! ## Statements -/

section Statements

variable {inner : Reader Expr} {body : Reader (List Stmt)} {levels : Nat}

/-- What a reader of statements is to make after the first word. -/
def TakesWithin (levels : Nat) (reader : Reader (Span → Stmt)) : Prop :=
  Takes (fun _ build => ∀ span, (build span).levels ≤ levels) reader

/-- Statements in a block, which take no more levels than there are with that of the block. -/
def BlockWithin (levels : Nat) (_ : List Lexeme) (stmts : List Stmt) : Prop :=
  Stmt.allLevels stmts < levels

/-- An expression in parentheses. -/
theorem condition_within (own : Takes (Within levels) inner) :
    Takes (Within levels) (condition inner) := by
  refine (takes_expect (by simp)).bind fun _ _ _ => own.bind fun _ value fits => ?_
  exact (takes_expect (by simp)).bind fun _ _ _ => takes_pure fits

/-- An assignment after its first word. -/
theorem assignment_within (own : Takes (Within levels) inner) :
    TakesWithin levels (assignment inner) := by
  refine takes_identifier.bind fun _ target _ => ?_
  have close {last : Expr → Reader (Span → Stmt)}
      (ends : ∀ value : Expr, value.levels < levels → TakesWithin levels (last value)) :
      TakesWithin levels (do
        expect (.symbol .equals)
        let value ← inner
        expect (.symbol .semicolon)
        last value) :=
    (takes_expect (by simp)).bind fun _ _ _ => own.bind fun _ value fits =>
      (takes_expect (by simp)).bind fun _ _ _ => ends value fits
  refine (takes_accept (by simp)).bind fun _ there _ => ?_
  cases there with
  | true =>
    refine own.bind fun _ index indexFits => (takes_expect (by simp)).bind fun _ _ _ => ?_
    rw [pure_bind]
    apply close
    intro value fits
    exact takes_pure fun span => Nat.max_le.mpr ⟨indexFits, fits⟩
  | false =>
    dsimp only
    rw [pure_bind]
    apply close
    intro value fits
    exact takes_pure fun span => fits

/-- A branch after its first word. -/
theorem branch_within (own : Takes (Within levels) inner)
    (block : Takes (BlockWithin levels) body) :
    TakesWithin levels (branch inner body) := by
  refine (condition_within own).bind fun _ test testFits => ?_
  refine block.bind fun _ thenBody thenFits => (takes_accept (by simp)).bind fun _ there _ => ?_
  have close (elseBody : List Stmt) (elseFits : Stmt.allLevels elseBody < levels) (span : Span) :
      (Stmt.branch test thenBody elseBody span).levels ≤ levels :=
    Nat.max_le.mpr ⟨testFits, Nat.max_le.mpr ⟨thenFits, elseFits⟩⟩
  cases there with
  | true => exact block.bind fun _ elseBody elseFits => takes_pure (close elseBody elseFits)
  | false =>
    dsimp only
    rw [pure_bind]
    exact takes_pure (close [] (Nat.lt_of_le_of_lt (Nat.zero_le _) thenFits))

/-- A loop after its first word. -/
theorem loop_within (own : Takes (Within levels) inner) (block : Takes (BlockWithin levels) body) :
    TakesWithin levels (loop inner body) := by
  refine (condition_within own).bind fun _ test testFits => ?_
  exact block.bind fun _ stmts fits => takes_pure fun span => Nat.max_le.mpr ⟨testFits, fits⟩

/-- A call statement after its first word. -/
theorem callStatement_within (own : Takes (Within levels) inner) :
    TakesWithin levels (callStatement inner) := by
  refine takes_identifier.bind fun _ first _ => (callAfter_within own first).bind ?_
  intro _ call fits
  exact (takes_expect (by simp)).bind fun _ _ _ => takes_pure fun span => fits

/-- A return statement after its first word. -/
theorem returnStatement_within (own : Takes (Within levels) inner) :
    TakesWithin levels (returnStatement inner) := by
  refine takes_peek fun found => ?_
  dsimp only
  split
  · rw [pure_bind]
    refine Takes.from ((takes_expect (by simp)).bind fun _ _ _ => takes_pure fun span => ?_)
    exact Nat.zero_le levels
  · refine Takes.from (own.bind fun _ value fits => ?_)
    rw [pure_bind]
    exact (takes_expect (by simp)).bind fun _ _ _ => takes_pure fun span => fits

/-- Statements, each of which takes no more levels than there are. -/
theorem statementsWith_within {item : Reader Stmt}
    (own : Takes (fun _ stmt => stmt.levels ≤ levels) item) :
    Takes (fun _ stmts => Stmt.allLevels stmts ≤ levels) (statementsWith item) := by
  refine (takes_repeat fun found _ => own.from).weaken ?_
  rintro _ stmts ⟨parts, -, each⟩
  induction each with
  | nil => exact Nat.zero_le levels
  | cons head _ ih => exact Nat.max_le.mpr ⟨head, ih⟩

/-- A statement. -/
theorem statement_within (own : Takes (Within levels) inner)
    (block : Takes (BlockWithin levels) body) :
    Takes (fun _ stmt => stmt.levels ≤ levels) (statement inner body) := by
  refine takes_spanned (takes_peek fun found => ?_)
  split
  · exact takesFrom_advance (by simp) (assignment_within own)
  · exact takesFrom_advance (by simp) (branch_within own block)
  · exact takesFrom_advance (by simp) (loop_within own block)
  · exact takesFrom_advance (by simp) (callStatement_within own)
  · exact takesFrom_advance (by simp) (returnStatement_within own)
  · exact takes_refuse.from

/-- A block takes no more levels than are left. -/
theorem block_within (levels : Nat) : Takes (BlockWithin levels) (block levels) := by
  induction levels with
  | zero =>
    rw [block]
    exact (takes_expect (by simp)).bind fun _ _ _ => takes_refuse
  | succ levels ih =>
    rw [block]
    refine (takes_expect (by simp)).bind fun _ _ _ => ?_
    have stmts := statementsWith_within (statement_within (levels_within levels).1 ih)
    refine stmts.bind fun _ stmts fits => (takes_expect (by simp)).bind fun _ _ _ => ?_
    exact takes_pure (Nat.lt_succ_of_le fits)

/-- The statements of a subroutine take no more levels than are left. -/
theorem statements_within (levels : Nat) :
    Takes (fun _ stmts => Stmt.allLevels stmts ≤ levels) (statements levels) :=
  statementsWith_within (statement_within (levels_within levels).1 (block_within levels))

end Statements

/-! ## Classes -/

/-- A subroutine whose statements take no more levels than the language allows. -/
def Subroutine.Shallow (subroutine : Subroutine) : Prop :=
  Stmt.allLevels subroutine.body ≤ nestingLimit

/-- What stands behind the kind and the result of a subroutine. -/
theorem subroutineAfter_within (kind : SubroutineKind) (result : JackType) :
    Takes (fun _ own => own.Shallow) (subroutineAfter kind result) := by
  refine takes_identifier.bind fun _ name _ => takes_parameters.bind fun _ params _ => ?_
  refine (takes_expect (by simp)).bind fun _ _ _ => ?_
  refine (takes_repeat fun found _ => takes_localVariables.from).bind fun _ locals _ => ?_
  refine (statements_within nestingLimit).bind fun _ body fits => ?_
  exact (takes_expect (by simp)).bind fun _ _ _ => takes_pure fits

/-- A subroutine. -/
theorem subroutine_within {found : Lexeme}
    (declares : (SubroutineKind.ofLexeme? found).isSome = true) :
    TakesFrom found (fun _ own => own.Shallow) subroutine := by
  obtain ⟨kind, known⟩ := Option.isSome_iff_exists.mp declares
  obtain rfl := SubroutineKind.ofLexeme?_eq_some known
  rw [subroutine_eq]
  refine takesFrom_peek (takesFrom_advance (by simp) ?_)
  refine (takes_accept (by simp)).bind fun _ nothing _ => ?_
  cases nothing with
  | true => exact subroutineAfter_within _ .void
  | false => exact takes_typeName.bind fun _ result _ => subroutineAfter_within _ result

/-- A class. -/
theorem classDeclaration_within :
    Takes (fun _ cls => ∀ own ∈ cls.subroutines, own.Shallow) classDeclaration := by
  refine (takes_expect (by simp)).bind fun _ _ _ => takes_identifier.bind fun _ name _ => ?_
  refine (takes_expect (by simp)).bind fun _ _ _ => ?_
  refine (takes_repeat fun found => takes_classVariables).bind fun _ vars _ => ?_
  refine (takes_repeat fun found => subroutine_within).bind ?_
  rintro _ subroutines ⟨parts, -, each⟩
  exact (takes_expect (by simp)).bind fun _ _ _ => takes_pure (forall_mem_of_parts each)

/-- The statements of a class that is read take no more levels than the language allows. -/
theorem shallow_of_readClass {source : String} {cls : Class} (read : readClass source = .ok cls) :
    ∀ own ∈ cls.subroutines, own.Shallow := by
  obtain ⟨lexemes, scanned, rest⟩ := bind_eq_ok.mp read
  obtain ⟨⟨result, after⟩, run, rest⟩ := bind_eq_ok.mp rest
  obtain rfl := Except.ok.inj rest
  have made := (run_wholeClass.mp run).1
  obtain ⟨taken, -, -, shallow⟩ := classDeclaration_within _ _ _ made
  exact shallow

end JackToolchain.Jack
