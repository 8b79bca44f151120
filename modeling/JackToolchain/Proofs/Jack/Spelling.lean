import JackToolchain.Proofs.Jack.Origins
import JackToolchain.Proofs.Jack.Scan
import JackToolchain.Proofs.Jack.Scope
import JackToolchain.Proofs.Vm.Spelling

/-!
# Spelling of compiled commands

The commands of a class that is read from a text have names of the language and numbers of 32 bits,
if the text has fewer than 2^32 characters and the run-time routines have names of the language. So
every command that the compiler emits for such a text can be written and read back.
-/
namespace JackToolchain

/-- The names of the run-time routines are names of the stack machine. -/
structure Vm.RuntimeNames.Named (runtime : Vm.RuntimeNames) : Prop where
  /-- The routine that reserves memory. -/
  alloc : Vm.isName runtime.alloc.toList = true
  /-- The routine that makes a string. -/
  stringNew : Vm.isName runtime.stringNew.toList = true
  /-- The routine that adds a character. -/
  stringAppend : Vm.isName runtime.stringAppend.toList = true
  /-- The routine that multiplies. -/
  multiply : Vm.isName runtime.multiply.toList = true
  /-- The routine that divides. -/
  divide : Vm.isName runtime.divide.toList = true

namespace Jack

open Vm (Command RuntimeNames isName isNameChar)
open Text (bound32)

/-! ## Names -/

section Names

variable {front back : String}

/-- Two names around a character of names are a name. -/
private theorem isName_append {mark : Char} (frontNamed : isName front.toList = true)
    (marked : isNameChar mark = true) (own : back.toList.all isNameChar = true) :
    isName (front ++ String.ofList [mark] ++ back).toList = true := by
  have text : (front ++ String.ofList [mark] ++ back).toList =
      front.toList ++ mark :: back.toList := by
    rw [String.toList_append, String.toList_append, String.toList_ofList, List.append_assoc,
      List.singleton_append]
  rw [text]
  cases letters : front.toList with
  | nil =>
    rw [letters] at frontNamed
    contradiction
  | cons first rest =>
    rw [letters, isName, Bool.and_eq_true] at frontNamed
    rw [List.cons_append, isName, frontNamed.1, ← List.cons_append, List.all_append, frontNamed.2,
      List.all_cons, marked, own]
    rfl

/-- The characters of a word. -/
theorem isWordChar_of_isWord {text : List Char} (word : isWord text = true) :
    ∀ c ∈ text, isWordChar c = true := by
  cases text with
  | nil => contradiction
  | cons first rest =>
    rw [isWord, Bool.and_eq_true] at word
    refine List.forall_mem_cons.mpr ⟨?_, List.all_eq_true.mp word.2⟩
    have starts := word.1
    rw [isWordStart, Bool.or_eq_true] at starts
    rw [isWordChar, Char.isAlphanum, Bool.or_eq_true, Bool.or_eq_true]
    exact starts.imp_left .inl

/-- A word is a name. -/
theorem isName_of_isWord {text : List Char} (word : isWord text = true) : isName text = true := by
  have chars : text.all isNameChar = true := by
    refine List.all_eq_true.mpr fun c member => ?_
    have own := isWordChar_of_isWord word c member
    rw [isWordChar, Bool.or_eq_true] at own
    rw [isNameChar, Bool.or_assoc, Bool.or_assoc, Bool.or_eq_true, Bool.or_eq_true]
    exact own.imp_right .inl
  cases text with
  | nil => contradiction
  | cons first rest =>
    rw [isWord, Bool.and_eq_true] at word
    rw [isName, isDigit_of_isWordStart word.1, chars]
    rfl

/-- A qualified name of words is a name. -/
theorem isName_qualify (frontWord : isWord front.toList = true)
    (backWord : isWord back.toList = true) :
    isName (ClassScope.qualify front back).toList = true :=
  isName_append (isName_of_isWord frontWord) (by decide)
    (Vm.all_isNameChar_of_isName (isName_of_isWord backWord)).2.1

/-- A numbered label is a name. -/
theorem isName_numberedLabel (stemNamed : isName front.toList = true) (number : Nat) :
    isName (numberedLabel front number).toList = true :=
  isName_append stemNamed (by decide) (Vm.all_isNameChar_repr number).2

end Names

/-! ## Scopes -/

/-- What a scope knows of a text of at most so many characters. -/
structure Scope.Fits (limit : Nat) (scope : Scope) : Prop where
  /-- The name of its class. -/
  cls : isWord scope.cls.name.toList = true
  /-- The numbers and the types of its names. -/
  known : ∀ name entry, scope.lookup? name = some entry →
    entry.ordinal ≤ limit ∧ entry.type.Fits

section Scopes

variable {limit : Nat} {known : ClassScope} {cls : Class}

/-- What a table knows of declarations that fit. -/
private theorem fits_of_knows {table : SymbolTable} {declarations : List Declaration}
    (knows : table.Knows declarations) (types : ∀ item ∈ declarations, item.type.Fits)
    (few : ∀ storage, declaredCount storage declarations ≤ limit + 1) {name : String}
    {entry : Entry} (found : table.get? name = some entry) :
    entry.ordinal ≤ limit ∧ entry.type.Fits := by
  rw [knows.get] at found
  obtain ⟨below, item, member, type, _⟩ := of_declared? found
  have bound := few entry.storage
  exact ⟨by omega, type ▸ types item member⟩

/-- A class that fits declares few variables of each storage. -/
theorem declaredCount_class_le (fits : cls.Fits limit) (storage : Storage) :
    declaredCount storage cls.declarations ≤ limit := by
  rw [declaredCount_class]
  cases storage with
  | static => exact fits.vars .static
  | field => exact fits.vars .field
  | argument => exact Nat.zero_le limit
  | «local» => exact Nat.zero_le limit

/-- The variables of a class that fits fit. -/
theorem fits_of_ofClass (fits : cls.Fits limit) (made : ClassScope.ofClass cls = .ok known) :
    isWord known.name.toList = true ∧ known.fieldCount ≤ limit ∧
      ∀ name entry, known.vars.get? name = some entry →
        entry.ordinal ≤ limit ∧ entry.type.Fits := by
  obtain ⟨name, knows, -⟩ := knows_of_ofClass made
  refine ⟨name ▸ fits.name, ?_, fun name entry found => fits_of_knows knows ?_ ?_ found⟩
  · have count := knows.count .field
    change known.vars.counts.field = _ at count
    rw [ClassScope.fieldCount, count]
    exact declaredCount_class_le fits .field
  · intro item member
    obtain ⟨own, inside, rfl⟩ := List.mem_map.mp member
    exact fits.varTypes own inside
  · exact fun storage => Nat.le_succ_of_le (declaredCount_class_le fits storage)

/-- The scope of a subroutine of a class that fits fits. -/
theorem fits_of_ofSubroutine {subroutine : Subroutine} {scope : Scope}
    (fits : subroutine.Fits limit) (clsWord : isWord known.name.toList = true)
    (clsFits : ∀ name entry, known.vars.get? name = some entry →
      entry.ordinal ≤ limit ∧ entry.type.Fits)
    (made : Scope.ofSubroutine known subroutine = .ok scope) :
    scope.Fits limit ∧ scope.routine.counts.local ≤ limit := by
  obtain ⟨rfl, knows⟩ := knows_of_ofSubroutine made
  have types : ∀ item ∈ subroutine.declarations scope.cls.name, item.type.Fits := by
    refine List.forall_mem_append.mpr ⟨List.forall_mem_append.mpr ⟨?_, ?_⟩, ?_⟩
    · split
      · exact List.forall_mem_singleton.mpr clsWord
      · exact fun item member => by contradiction
    · intro item member
      obtain ⟨own, inside, rfl⟩ := List.mem_map.mp member
      exact fits.paramTypes own inside
    · intro item member
      obtain ⟨own, inside, rfl⟩ := List.mem_map.mp member
      exact fits.localTypes own inside
  have few (storage : Storage) :
      declaredCount storage (subroutine.declarations scope.cls.name) ≤ limit + 1 := by
    have params := fits.params
    have locals := fits.locals
    rw [declaredCount_subroutine]
    cases storage with
    | argument =>
      dsimp only
      split <;> omega
    | «local» =>
      dsimp only
      omega
    | _ => exact Nat.zero_le _
  constructor
  · refine ⟨clsWord, fun name entry found => ?_⟩
    unfold Scope.lookup? at found
    cases own : scope.routine.get? name with
    | none =>
      rw [own, Option.none_or] at found
      exact clsFits name entry found
    | some known =>
      rw [own, Option.some_or] at found
      obtain rfl := Option.some.inj found
      exact fits_of_knows knows types few own
  · have count := knows.count .local
    rw [declaredCount_subroutine] at count
    have equal : scope.routine.counts.local = subroutine.locals.length := count
    rw [equal]
    exact fits.locals

end Scopes

/-! ## Commands -/

section Commands

variable {limit : Nat} {runtime : RuntimeNames} {scope : Scope} {code : List Command}

/-- Commands that are written and read back. -/
def AllSpelled (code : List Command) : Prop := ∀ command ∈ code, command.Spelled

/-- A push or a pop of a known variable is spelled. -/
theorem spelled_of_lookup? (fits : scope.Fits limit) (short : limit < bound32) {name : String}
    {entry : Entry} (known : scope.lookup? name = some entry) :
    entry.push.Spelled ∧ entry.pop.Spelled := by
  have small : entry.ordinal < bound32 := Nat.lt_of_le_of_lt (fits.known name entry known).1 short
  exact ⟨small, small⟩

/-- A constant in range is pushed by a spelled command. -/
theorem spelled_constant {value : Nat} (small : value ≤ maxConstant) :
    (Command.push .constant value).Spelled := by
  change value < 4294967296
  have bound : maxConstant = 32767 := rfl
  omega

/-- The commands of a string literal are spelled. -/
theorem spelled_stringCommands (named : runtime.Named) (short : limit < bound32) {content : String}
    (fits : (Lexeme.string content).Fits limit) :
    AllSpelled (stringCommands runtime content) := by
  refine List.forall_mem_append.mpr ⟨?_, fun command member => ?_⟩
  · refine List.forall_mem_cons.mpr ⟨Nat.lt_of_le_of_lt fits.1 short, ?_⟩
    exact List.forall_mem_singleton.mpr ⟨named.stringNew, by decide⟩
  · obtain ⟨c, inside, own⟩ := List.mem_flatMap.mp member
    rcases List.mem_cons.mp own with rfl | own
    · exact spelled_constant (fits.2 c inside)
    · obtain rfl := List.mem_singleton.mp own
      exact ⟨named.stringAppend, by decide⟩

/-- The subroutine that a call runs has a name of the language, and its receiver is one word. -/
theorem spelled_of_callee (fits : scope.Fits limit) (short : limit < bound32)
    {receiver : Option Name} {name : Name} {callee : Callee}
    (receiverWord : ∀ own, receiver = some own → isWord own.node.toList = true)
    (word : isWord name.node.toList = true) (made : scope.callee receiver name = .ok callee) :
    AllSpelled callee.receiver ∧ callee.receiver.length ≤ 1 ∧ isName callee.name.toList = true := by
  have none : AllSpelled [] := fun command member => by contradiction
  obtain ⟨own, entry, rfl, known, rfl⟩ | ⟨own, rfl, -, rfl⟩ | ⟨-, rfl⟩ | ⟨-, rfl⟩ :=
    callee_cases made
  · exact ⟨List.forall_mem_singleton.mpr (spelled_of_lookup? fits short known).1, Nat.le_refl 1,
      isName_qualify (fits.known _ _ known).2 word⟩
  · exact ⟨none, Nat.zero_le 1, isName_qualify (receiverWord _ rfl) word⟩
  · exact ⟨List.forall_mem_singleton.mpr (by decide : 0 < bound32), Nat.le_refl 1,
      isName_qualify fits.cls word⟩
  · exact ⟨none, Nat.zero_le 1, isName_qualify fits.cls word⟩

/-- The command of an infix operator is spelled. -/
theorem spelled_binary (named : runtime.Named) (op : BinaryOp) : (op.command runtime).Spelled := by
  cases op with
  | mul => exact ⟨named.multiply, by decide⟩
  | div => exact ⟨named.divide, by decide⟩
  | _ => trivial

/-- The commands of an expression by itself are spelled. -/
theorem spelled_of_own (named : runtime.Named) (fits : scope.Fits limit) (short : limit < bound32)
    {part : Expr} (bounded : part.Bounded limit) : AllSpelled (part.own runtime scope) := by
  have known (name : String) : AllSpelled ((scope.lookup? name).map Entry.push).toList := by
    cases known : scope.lookup? name with
    | none => exact fun command member => by contradiction
    | some entry =>
      exact List.forall_mem_singleton.mpr (spelled_of_lookup? fits short known).1
  cases part with
  | binary op left right span => exact List.forall_mem_singleton.mpr (spelled_binary named op)
  | unary op operand span =>
    refine List.forall_mem_singleton.mpr ?_
    cases op <;> trivial
  | integer value span => exact List.forall_mem_singleton.mpr (spelled_constant bounded)
  | string content span => exact spelled_stringCommands named short bounded
  | boolean value span =>
    cases value with
    | false => exact List.forall_mem_singleton.mpr (spelled_constant (by decide))
    | true =>
      exact List.forall_mem_cons.mpr
        ⟨spelled_constant (by decide), List.forall_mem_singleton.mpr trivial⟩
  | null span => exact List.forall_mem_singleton.mpr (spelled_constant (by decide))
  | this span => exact List.forall_mem_singleton.mpr (by decide : 0 < bound32)
  | «variable» name span => exact known name
  | element array index span =>
    refine List.forall_mem_append.mpr ⟨known array.node, List.forall_mem_cons.mpr ⟨trivial, ?_⟩⟩
    exact List.forall_mem_cons.mpr ⟨(by decide : 1 < bound32),
      List.forall_mem_singleton.mpr (by decide : 0 < bound32)⟩
  | call receiver name args span =>
    obtain ⟨receiverWord, word, few⟩ := bounded
    rw [Expr.own]
    split
    · rename_i callee made
      obtain ⟨receiverSpelled, one, calleeNamed⟩ :=
        spelled_of_callee fits short receiverWord word made
      exact List.forall_mem_append.mpr
        ⟨receiverSpelled, List.forall_mem_singleton.mpr ⟨calleeNamed, by omega⟩⟩
    · exact fun command member => by contradiction
  | group inner span => exact fun command member => by contradiction

/-- The commands that join statements are spelled. -/
theorem spelled_of_joins (fits : scope.Fits limit) (short : limit < bound32) {command : Command}
    (joins : Joins scope command) : command.Spelled := by
  have label {stem : String} (member : stem ∈ stems) (number : Nat) :
      isName (numberedLabel stem number).toList = true := by
    have stemNamed : ∀ stem ∈ stems, isName stem.toList = true := by decide
    exact isName_numberedLabel (stemNamed stem member) number
  cases joins with
  | joint member =>
    have all : ∀ command ∈ joints, command.Spelled := by decide
    exact all _ member
  | read known => exact (spelled_of_lookup? fits short known).1
  | write known => exact (spelled_of_lookup? fits short known).2
  | label member number => exact label member number
  | goto member number => exact label member number
  | ifGoto member number => exact label member number

/-- A command of a class that fits arises from a subroutine whose scope fits. -/
theorem arises_of_fits {cls : Class} (fits : cls.Fits limit)
    (made : cls.commands runtime = .ok code) {command : Command} (member : command ∈ code) :
    ∃ known, ∃ subroutine ∈ cls.subroutines, ∃ scope,
      isWord known.name.toList = true ∧ known.fieldCount ≤ limit ∧ scope.Fits limit ∧
        scope.routine.counts.local ≤ limit ∧ Arises runtime known subroutine scope command := by
  obtain ⟨known, clsMade, subroutinesMade⟩ := bind_eq_ok.mp made
  obtain ⟨clsWord, fields, clsFits⟩ := fits_of_ofClass fits clsMade
  obtain ⟨subroutine, inside, scope, scopeMade, arises⟩ :=
    arises_of_subroutines subroutinesMade command member
  obtain ⟨scopeFits, locals⟩ :=
    fits_of_ofSubroutine (fits.subroutines subroutine inside) clsWord clsFits scopeMade
  exact ⟨known, subroutine, inside, scope, clsWord, fields, scopeFits, locals, arises⟩

/-- The commands of a class that fits are spelled. -/
theorem spelled_of_commands {cls : Class} (named : runtime.Named) (fits : cls.Fits limit)
    (short : limit < bound32) (made : cls.commands runtime = .ok code) : AllSpelled code := by
  intro command member
  obtain ⟨known, subroutine, inside, scope, clsWord, fields, scopeFits, locals, arises⟩ :=
    arises_of_fits fits made member
  have own := fits.subroutines subroutine inside
  cases arises with
  | entry => exact ⟨isName_qualify clsWord own.name, Nat.lt_of_le_of_lt locals short⟩
  | prologue member =>
    have zero : 0 < bound32 := by decide
    have all : AllSpelled (prologue runtime known subroutine.kind) := by
      cases subroutine.kind with
      | constructor =>
        exact List.forall_mem_cons.mpr ⟨Nat.lt_of_le_of_lt fields short, List.forall_mem_cons.mpr
          ⟨⟨named.alloc, by decide⟩, List.forall_mem_singleton.mpr zero⟩⟩
      | method => exact List.forall_mem_cons.mpr ⟨zero, List.forall_mem_singleton.mpr zero⟩
      | function => exact fun command member => by contradiction
    exact all command member
  | computed inside computed =>
    exact spelled_of_own named scopeFits short (own.body _ inside) command computed
  | joined joins => exact spelled_of_joins scopeFits short joins

/-- A class that is read from a text fits it. -/
theorem fits_of_readClass {source : String} {cls : Class} (read : readClass source = .ok cls) :
    cls.Fits source.length := by
  obtain ⟨lexemes, scanned, rest⟩ := bind_eq_ok.mp read
  obtain ⟨⟨cls, cursor⟩, run, result⟩ := bind_eq_ok.mp rest
  obtain rfl := Except.ok.inj result
  exact (reads_wholeClass _ _ _ run (fits_of_scan scanned)).2.2

/-- The commands of the class of a text are spelled. -/
theorem spelled_of_compile {source : String} (named : runtime.Named)
    (short : source.length < bound32) (compiled : compile runtime source = .ok code) :
    AllSpelled code := by
  obtain ⟨cls, read, made⟩ := bind_eq_ok.mp compiled
  exact spelled_of_commands named (fits_of_readClass read) short made

end Commands

end Jack

end JackToolchain
