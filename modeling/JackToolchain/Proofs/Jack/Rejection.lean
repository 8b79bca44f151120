import JackToolchain.Proofs.Jack.Scoping
import JackToolchain.Proofs.Jack.Standing

/-!
# Rejected classes

A class that is read from a source text is compiled unless it is ill-scoped. The names that its
scopes are asked about stand in the text where they say, so the place of the fault holds the name
that its wording quotes.
-/
namespace JackToolchain

open Vm (RuntimeNames)

/-! ## Wording -/

/-- The mark around names in the wording of faults. -/
def quoteMark : Char := Char.ofNat 39

/-- The first text that the wording of a fault has between quotes. -/
def Fault.Quotes (fault : Fault) (name : String) : Prop :=
  ∃ before after, fault.message = before ++ ("'" ++ name ++ "'") ++ after ∧
    quoteMark ∉ before.toList ∧ quoteMark ∉ name.toList

section Wording

variable {scope className name : String}

/-- The wording of a name that is declared again. -/
theorem quotes_duplicate (plain : quoteMark ∉ name.toList) :
    (Fault.duplicate scope name).Quotes name := by
  refine ⟨"", " is already declared in " ++ scope, ?_, by decide, plain⟩
  have cut : "' is already declared in " = "'" ++ " is already declared in " := by simp
  calc (Fault.duplicate scope name).message =
      "'" ++ name ++ "' is already declared in " ++ scope := rfl
    _ = _ := by simp only [cut, String.append_assoc, String.empty_append]

/-- The wording of a variable without a declaration. -/
theorem quotes_undeclaredVariable (plain : quoteMark ∉ name.toList) :
    (Fault.undeclaredVariable scope name).Quotes name := by
  refine ⟨"undeclared variable ", " in " ++ scope, ?_, by decide, plain⟩
  have opening : "undeclared variable '" = "undeclared variable " ++ "'" := by simp
  have closing : "' in " = "'" ++ " in " := by simp
  calc (Fault.undeclaredVariable scope name).message =
      "undeclared variable '" ++ name ++ "' in " ++ scope := rfl
    _ = _ := by simp only [opening, closing, String.append_assoc]

/-- The wording of a subroutine without a declaration. -/
theorem quotes_unknownSubroutine (plain : quoteMark ∉ name.toList) :
    (Fault.unknownSubroutine className name).Quotes name := by
  refine ⟨"unknown subroutine ", " in class " ++ className, ?_, by decide, plain⟩
  have opening : "unknown subroutine '" = "unknown subroutine " ++ "'" := by simp
  have closing : "' in class " = "'" ++ " in class " := by simp
  calc (Fault.unknownSubroutine className name).message =
      "unknown subroutine '" ++ name ++ "' in class " ++ className := rfl
    _ = _ := by simp only [opening, closing, String.append_assoc]

end Wording

namespace Jack

/-! ## Places of names -/

section Holding

/-- A use in a call is a piece of it, apart from the uses in its arguments. -/
theorem holds_of_callUse {receiver : Option Name} {callee : Name} {args : List Expr} {use : Use}
    (member : use ∈ callUses receiver callee) :
    Holds (.name use.name) (callForm receiver callee args) := by
  cases receiver with
  | some receiver => contradiction
  | none =>
    obtain rfl := List.mem_singleton.mp member
    exact .here

/-- A piece of an argument of a call is a piece of the call. -/
theorem Holds.callForm {piece : Piece} {args : List Expr} {arg : Expr} (holds : Holds piece arg.form)
    (receiver : Option Name) (callee : Name) (member : arg ∈ args) :
    Holds piece (callForm receiver callee args) := by
  have listed : Holds piece (Piece.listed (args.map fun arg => [.expr arg])) :=
    Holds.listed (List.mem_map_of_mem member) (.expr holds)
  cases receiver with
  | some receiver => exact .behind (.behind (.behind listed.parenthesized))
  | none => exact .behind listed.parenthesized

mutual

/-- The name of a use in an expression is a piece of it. -/
theorem holds_of_exprUse (expr : Expr) {use : Use} (member : use ∈ expr.uses) :
    Holds (.name use.name) expr.form := by
  cases expr with
  | binary op left right span =>
    rw [Expr.uses] at member
    rcases List.mem_append.mp member with own | own
    · exact .expr (holds_of_exprUse left own)
    · exact .behind (.behind (.expr (holds_of_exprUse right own)))
  | unary op operand span =>
    rw [Expr.uses] at member
    exact .behind (.expr (holds_of_exprUse operand member))
  | «variable» name span =>
    rw [Expr.uses] at member
    obtain rfl := List.mem_singleton.mp member
    exact .here
  | element array index span =>
    rw [Expr.uses] at member
    rcases List.mem_append.mp member with own | own
    · exact .behind (.behind (.expr (holds_of_exprUse index own)))
    · obtain rfl := List.mem_singleton.mp own
      exact .here
  | call receiver callee args span =>
    rw [Expr.uses] at member
    rcases List.mem_append.mp member with own | own
    · exact holds_of_callUse own
    · obtain ⟨arg, inside, holds⟩ := holds_of_argumentUse args own
      exact holds.callForm receiver callee inside
  | group inner span =>
    rw [Expr.uses] at member
    exact Holds.parenthesized (.expr (holds_of_exprUse inner member))
  | integer | string | boolean | null | this =>
    rw [Expr.uses] at member
    contradiction

/-- The name of a use in arguments is a piece of one of them. -/
theorem holds_of_argumentUse (args : List Expr) {use : Use} (member : use ∈ Expr.allUses args) :
    ∃ arg ∈ args, Holds (.name use.name) arg.form := by
  cases args with
  | nil => contradiction
  | cons arg rest =>
    rw [Expr.allUses] at member
    rcases List.mem_append.mp member with own | later
    · exact ⟨arg, List.mem_cons_self, holds_of_exprUse arg own⟩
    · obtain ⟨other, inside, holds⟩ := holds_of_argumentUse rest later
      exact ⟨other, List.mem_cons_of_mem _ inside, holds⟩

end

mutual

/-- The name of a use in a statement is a piece of it. -/
theorem holds_of_stmtUse (stmt : Stmt) {use : Use} (member : use ∈ stmt.uses) :
    Holds (.name use.name) stmt.form := by
  cases stmt with
  | assign target value span =>
    rw [Stmt.uses] at member
    rcases List.mem_append.mp member with own | own
    · exact .behind (.behind (.behind (.expr (holds_of_exprUse value own))))
    · obtain rfl := List.mem_singleton.mp own
      exact .behind .here
  | assignElement array index value span =>
    rw [Stmt.uses] at member
    rcases List.mem_cons.mp member with rfl | inside
    · exact .behind .here
    · rcases List.mem_append.mp inside with own | own
      · exact .behind (.behind (.behind (.expr (holds_of_exprUse index own))))
      · have last : Holds (.name use.name)
            [.mark (.symbol .bracketClose), .mark (.symbol .equals), .expr value,
              .mark (.symbol .semicolon)] :=
          .behind (.behind (.expr (holds_of_exprUse value own)))
        exact .behind (.behind (.behind (.behind last)))
  | branch condition thenBody elseBody span =>
    rw [Stmt.uses] at member
    rcases List.mem_append.mp member with own | later
    · have test : Holds (.name use.name) (Piece.parenthesized [.expr condition]) :=
        Holds.parenthesized (.expr (holds_of_exprUse condition own))
      exact .behind (test.append_left _)
    · rcases List.mem_append.mp later with own | own
      · have first := (holds_of_bodyUse thenBody own).braced
        exact .behind ((first.append_left _).append_right _)
      · have second : Holds (.name use.name) [.otherwise elseBody] :=
          .otherwise (holds_of_bodyUse elseBody own)
        exact .behind ((second.append_right _).append_right _)
  | loop condition body span =>
    rw [Stmt.uses] at member
    rcases List.mem_append.mp member with own | own
    · have test : Holds (.name use.name) (Piece.parenthesized [.expr condition]) :=
        Holds.parenthesized (.expr (holds_of_exprUse condition own))
      exact .behind (test.append_left _)
    · have inside := (holds_of_bodyUse body own).braced
      exact .behind (inside.append_right _)
  | call receiver callee args span =>
    rw [Stmt.uses] at member
    rcases List.mem_append.mp member with own | own
    · exact .behind ((holds_of_callUse own).append_left _)
    · obtain ⟨arg, inside, holds⟩ := holds_of_argumentUse args own
      exact .behind ((holds.callForm receiver callee inside).append_left _)
  | leave result span =>
    cases result with
    | none =>
      rw [Stmt.uses] at member
      contradiction
    | some value =>
      rw [Stmt.uses] at member
      exact .behind (.expr (holds_of_exprUse value member))

/-- The name of a use in statements is a piece of them. -/
theorem holds_of_bodyUse (stmts : List Stmt) {use : Use} (member : use ∈ Stmt.bodyUses stmts) :
    Holds (.name use.name) (stmts.map .stmt) := by
  cases stmts with
  | nil => contradiction
  | cons stmt rest =>
    rw [Stmt.bodyUses] at member
    rcases List.mem_append.mp member with own | later
    · exact .stmt (holds_of_stmtUse stmt own)
    · exact .behind (holds_of_bodyUse rest later)

end

variable {name : Name} {form : List Piece}

/-- A declared name is a piece of the declaration. -/
theorem holds_declarationForm {names : List Name} (word : Keyword) (type : JackType)
    (member : name ∈ names) : Holds (.name name) (declarationForm word type names) := by
  have listed : Holds (.name name) (Piece.listed (names.map fun name => [.name name])) :=
    Holds.listed (List.mem_map_of_mem member) .here
  exact .behind (.behind (listed.append_left _))

/-- What every form of a value holds, consecutive forms hold. -/
theorem Holds.consecutive {α : Type} {piece : Piece} {forms : List Piece → α → Prop}
    {values : List α} {value : α} (consecutive : Consecutive forms form values)
    (member : value ∈ values) (each : ∀ own, forms own value → Holds piece own) :
    Holds piece form := by
  induction consecutive with
  | nil => contradiction
  | cons first _ ih =>
    rcases List.mem_cons.mp member with rfl | later
    · exact (each _ first).append_left _
    · exact (ih later).append_right _

/-- What every form of the group of a value holds, the forms of all groups hold. -/
theorem Holds.grouped {α : Type} {piece : Piece} {forms : List Piece → List α → Prop}
    {groups : List (List α)} {values : List α} {value : α}
    (consecutive : Consecutive forms form groups) (flat : values = groups.flatten)
    (member : value ∈ values)
    (each : ∀ own group, forms own group → value ∈ group → Holds piece own) :
    Holds piece form := by
  rw [flat] at member
  obtain ⟨group, among, inGroup⟩ := List.mem_flatten.mp member
  exact Holds.consecutive consecutive among fun own written => each own group written inGroup

/-- The names of a subroutine are pieces of it. -/
theorem holds_of_subroutine {subroutine : Subroutine} (own : subroutine.Form form)
    (member : name ∈ subroutine.names) : Holds (.name name) form := by
  obtain ⟨groups, locals, grouped, flat, rfl⟩ := own
  have inBraces {piece : Piece} (holds : Holds piece (locals ++ subroutine.body.map .stmt)) :
      Holds piece (parametersForm subroutine.params ++
        Piece.braced (locals ++ subroutine.body.map .stmt)) := holds.braced.append_right _
  refine .behind (.behind (.behind ?_))
  rcases List.mem_append.mp member with declared | used
  · rcases List.mem_append.mp declared with isParam | isLocal
    · obtain ⟨param, inside, rfl⟩ := List.mem_map.mp isParam
      have listed : Holds (.name param.name)
          (Piece.listed (subroutine.params.map parameterForm)) :=
        Holds.listed (List.mem_map_of_mem inside) (.behind .here)
      exact listed.parenthesized.append_left _
    · obtain ⟨item, inside, rfl⟩ := List.mem_map.mp isLocal
      have declared : Holds (.name item.name) locals := by
        refine Holds.grouped grouped flat inside ?_
        rintro _ _ ⟨type, names, rfl, rfl⟩ inGroup
        obtain ⟨name, inNames, rfl⟩ := List.mem_map.mp inGroup
        exact holds_declarationForm .var type inNames
      exact inBraces (declared.append_left _)
  · obtain ⟨use, inside, rfl⟩ := List.mem_map.mp used
    exact inBraces ((holds_of_bodyUse subroutine.body inside).append_right _)

/-- The names of a class are pieces of it. -/
theorem holds_of_class {cls : Class} (own : cls.Form form) (member : name ∈ cls.names) :
    Holds (.name name) form := by
  obtain ⟨groups, vars, subroutines, grouped, flat, separate, rfl⟩ := own
  refine .behind (.behind (Holds.braced ?_))
  have inSubroutine {subroutine : Subroutine} (among : subroutine ∈ cls.subroutines)
      (each : ∀ form, subroutine.Form form → Holds (.name name) form) :
      Holds (.name name) (vars ++ subroutines) :=
    (Holds.consecutive separate among each).append_right _
  rcases List.mem_append.mp member with isVariable | rest
  · obtain ⟨item, inside, rfl⟩ := List.mem_map.mp isVariable
    have declared : Holds (.name item.name) vars := by
      refine Holds.grouped grouped flat inside ?_
      rintro _ _ ⟨storage, type, names, rfl, rfl⟩ inGroup
      obtain ⟨name, inNames, rfl⟩ := List.mem_map.mp inGroup
      exact holds_declarationForm storage.keyword type inNames
    exact declared.append_left _
  · rcases List.mem_append.mp rest with isSubroutine | inside
    · obtain ⟨subroutine, among, rfl⟩ := List.mem_map.mp isSubroutine
      refine inSubroutine among ?_
      rintro _ ⟨groups, locals, -, -, rfl⟩
      exact .behind (.behind .here)
    · obtain ⟨subroutine, among, named⟩ := List.mem_flatMap.mp inside
      exact inSubroutine among fun own written => holds_of_subroutine written named

end Holding

/-! ## Classes of a source text -/

section Sources

variable {source : String} {cls : Class} {name : Name}

/-- The names of a class that is read stand in the source text where they say, and they are words
that are not reserved. -/
theorem of_mem_names (read : readClass source = .ok cls) (member : name ∈ cls.names) :
    name.span.Covers source name.node ∧ isWord name.node.toList = true ∧
      Keyword.ofText? name.node = none := by
  obtain ⟨taken, last, form, scanned, -, own, written⟩ := writes_of_readClass read
  have token : nameToken name ∈ taken ++ [last] :=
    List.mem_append_left _ (written.nameToken_mem (holds_of_class own member))
  obtain ⟨front, nodes, writable⟩ := writable_of_scan scanned
  have node : Lexeme.identifier name.node ∈ front ++ [.eof] := by
    rw [← nodes]
    exact List.mem_map_of_mem token
  have inFront : Lexeme.identifier name.node ∈ front := by
    rcases List.mem_append.mp node with inside | last
    · exact inside
    · cases List.mem_singleton.mp last
  exact ⟨covers_of_name scanned token, writable _ inFront⟩

/-- Words have no quotes. -/
theorem quoteMark_of_isWord {text : List Char} (word : isWord text = true) :
    quoteMark ∉ text := by
  intro member
  have own : ∀ c ∈ text, isWordChar c = true := by
    cases text with
    | nil => exact fun c none => by contradiction
    | cons first rest =>
      rw [isWord, Bool.and_eq_true, List.all_eq_true] at word
      exact List.forall_mem_cons.mpr ⟨isWordChar_of_isWordStart word.1, word.2⟩
  have isChar := own quoteMark member
  revert isChar
  decide

/-- The fault of a class is at the place of one of its names, which its wording quotes. -/
theorem of_mem_faults {fault : Spanned Fault}
    (plain : ∀ name ∈ cls.names, quoteMark ∉ name.node.toList) (member : fault ∈ cls.faults) :
    ∃ name ∈ cls.names, fault.span = name.span ∧ fault.node.Quotes name.node := by
  have repeated {title : String} {names : List Name} (inside : ∀ name ∈ names, name ∈ cls.names)
      (own : fault ∈ repetitions title [] names) :
      ∃ name ∈ cls.names, fault.span = name.span ∧ fault.node.Quotes name.node := by
    obtain ⟨name, declared, rfl⟩ := of_mem_repetitions own
    exact ⟨name, inside name declared, rfl, quotes_duplicate (plain name (inside name declared))⟩
  rcases List.mem_append.mp member with own | rest
  · exact repeated (fun name inside => List.mem_append_left _ inside) own
  · rcases List.mem_append.mp rest with own | inside
    · exact repeated (fun name inside =>
        List.mem_append_right _ (List.mem_append_left _ inside)) own
    · obtain ⟨subroutine, among, blamed⟩ := List.mem_flatMap.mp inside
      have named : ∀ name ∈ subroutine.names, name ∈ cls.names := fun name own =>
        List.mem_append_right _ (List.mem_append_right _
          (List.mem_flatMap.mpr ⟨subroutine, among, own⟩))
      rcases List.mem_append.mp blamed with own | used
      · exact repeated (fun name inside => named name (List.mem_append_left _ inside)) own
      · obtain ⟨use, unknown, rfl⟩ := List.mem_map.mp used
        have own : use.name ∈ subroutine.names :=
          List.mem_append_right _ (List.mem_map_of_mem (List.mem_filter.mp unknown).1)
        refine ⟨use.name, named _ own, ?_⟩
        have quiet := plain use.name (named _ own)
        cases use with
        | «variable» name => exact ⟨rfl, quotes_undeclaredVariable quiet⟩
        | subroutine name => exact ⟨rfl, quotes_unknownSubroutine quiet⟩

/-- Exactly the ill-scoped classes are rejected. The fault is the first one of the class, and the
text at its place is the name that its wording quotes. -/
theorem rejected_iff_illScoped (read : readClass source = .ok cls) (runtime : RuntimeNames) :
    ((∃ fault, cls.commands runtime = .error fault) ↔ cls.IllScoped) ∧
      ∀ fault, cls.commands runtime = .error fault →
        cls.faults.head? = some fault ∧
          ∃ name ∈ cls.names, fault.node.Quotes name.node ∧ fault.span = name.span ∧
            ∀ text, fault.span.Covers source text ↔ text = name.node := by
  have plain : ∀ name ∈ cls.names, name.node ≠ Scope.receiverName := by
    intro name member same
    have free := (of_mem_names read member).2.2
    rw [same] at free
    contradiction
  have quiet : ∀ name ∈ cls.names, quoteMark ∉ name.node.toList :=
    fun name member => quoteMark_of_isWord (of_mem_names read member).2.1
  have reports := reports_class runtime plain
  constructor
  · rw [reports.exists_error_iff, Class.illScoped_iff]
  · intro fault failed
    obtain ⟨name, member, place, quotes⟩ := of_mem_faults quiet (reports.mem failed)
    rw [failed] at reports
    refine ⟨reports, name, member, quotes, place, fun text => ?_⟩
    rw [place]
    have covers := (of_mem_names read member).1
    constructor
    · exact fun other => other.unique covers
    · rintro rfl
      exact covers

/-- A class with an assignment to a variable that nothing declares. -/
def straySource : String :=
  "class Main \x7b field int x; function void f(int a) \x7b let y = a; return; \x7d \x7d"

/-- The stray variable is reported where it stands. -/
theorem stray_rejected :
    ∃ cls fault, readClass straySource = .ok cls ∧ cls.IllScoped ∧
      cls.commands {} = .error fault ∧ fault.node.Quotes "y" ∧
      fault.span.Covers straySource "y" := by
  have known : (readClass straySource).toOption.map Class.faults =
      some [⟨.undeclaredVariable "Main.f" "y", ⟨55, 56⟩⟩] := by decide +kernel
  obtain ⟨cls, read, faults⟩ := Option.map_eq_some_iff.mp known
  have read : readClass straySource = .ok cls := toOption_eq_some.mp read
  have rejects := rejected_iff_illScoped read {}
  have ill : cls.IllScoped := by
    rw [Class.illScoped_iff, faults]
    exact List.cons_ne_nil _ _
  obtain ⟨fault, failed⟩ := rejects.1.mpr ill
  obtain ⟨first, name, -, quotes, -, covers⟩ := rejects.2 fault failed
  rw [faults] at first
  have place : fault.span = ⟨55, 56⟩ := (congrArg Spanned.span (Option.some.inj first)).symm
  have covered : fault.span.Covers straySource "y" := by
    rw [place]
    exact ⟨"class Main \x7b field int x; function void f(int a) \x7b let ",
      " = a; return; \x7d \x7d", by decide +kernel, by decide +kernel⟩
  rw [← (covers "y").mp covered] at quotes
  exact ⟨cls, fault, read, ill, failed, quotes, covered⟩

end Sources

end Jack

end JackToolchain
