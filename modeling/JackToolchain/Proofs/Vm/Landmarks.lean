import JackToolchain.Proofs.Assembly.Acceptance
import JackToolchain.Proofs.Vm.Routine
import JackToolchain.Proofs.Vm.Writing
import Mathlib.Data.List.Nodup

/-!
# Landmarks of a program

The places of a program that have labels: the entries of functions, the labels of the program
itself, the ends of comparisons and the returns of calls. The symbol of such a place is made of
parts with a mark between each two that no part contains, so it determines the place. Places of one
unit are told apart by their names and their numbers, and places of different units by the functions
that own them.
-/
namespace JackToolchain.Vm

open Assembly (Instruction isSymbol isSymbolChar labelsOf)
open Routine (labels)

/-- What a label of an assembled program stands for. -/
inductive Landmark where
  /-- The entry of a function. -/
  | entry (name : String)
  /-- A label in a function or in the start of a unit. -/
  | label (scope name : String)
  /-- The end of a comparison. -/
  | comparison (scope : String) (number : Nat)
  /-- The place behind a call. -/
  | call (scope : String) (number : Nat)
deriving DecidableEq

namespace Landmark

/-- The function or the unit that a landmark belongs to. -/
def owner : Landmark → String
  | .entry name => name
  | .label scope _ | .comparison scope _ | .call scope _ => scope

/-- The parts of the symbol of a landmark. -/
def parts : Landmark → List String
  | .entry name => [name]
  | .label scope name => [scope, name]
  | .comparison scope number => [scope, "cmp", number.repr]
  | .call scope number => [scope, "ret", number.repr]

/-- The symbol of a landmark. -/
def symbol (landmark : Landmark) : String := "$".intercalate landmark.parts

/-- A landmark whose owner and name do not contain the mark between the parts of symbols. -/
def Plain (landmark : Landmark) : Prop := ∀ part ∈ landmark.parts, '$' ∉ part.toList

section Symbols

variable {left right landmark : Landmark}

/-- The parts of a plain landmark are found in its symbol. -/
theorem splitOn_symbol (plain : landmark.Plain) :
    landmark.symbol.toList.splitOn '$' = landmark.parts.map String.toList := by
  have text : landmark.symbol.toList = ['$'].intercalate (landmark.parts.map String.toList) :=
    String.toList_intercalate
  rw [text, List.splitOn_intercalate]
  · intro part member
    obtain ⟨own, inside, rfl⟩ := List.mem_map.mp member
    exact plain own inside
  · cases landmark <;> exact List.cons_ne_nil _ _

/-- The parts of a landmark determine it. -/
theorem parts_inj (same : left.parts = right.parts) : left = right := by
  cases left <;> cases right <;>
    simp only [parts, List.cons.injEq, String.reduceEq, and_true, and_false, false_and, true_and,
      reduceCtorEq] at same
  · rw [same]
  · rw [same.1, same.2]
  · rw [same.1, Assembly.repr_inj same.2]
  · rw [same.1, Assembly.repr_inj same.2]

/-- The symbol of a plain landmark determines it. -/
theorem symbol_inj (leftPlain : left.Plain) (rightPlain : right.Plain)
    (same : left.symbol = right.symbol) : left = right := by
  have texts := splitOn_symbol leftPlain
  rw [same, splitOn_symbol rightPlain] at texts
  exact parts_inj (List.map_injective_iff.mpr (fun _ _ => String.toList_inj.mp) texts.symm)

/-- The symbol of an entry is the name of the function. -/
@[simp] theorem symbol_entry (name : String) : (entry name).symbol = name := by
  simp [symbol, parts]

/-- The symbol of a label. -/
@[simp] theorem symbol_label (numbering : Numbering) (name : String) :
    (label numbering.scope name).symbol = numbering.labelSymbol name := by
  simp [symbol, parts, Numbering.labelSymbol]

/-- The symbol of the end of a comparison. -/
@[simp] theorem symbol_comparison (numbering : Numbering) :
    (comparison numbering.scope numbering.comparisons).symbol = numbering.comparisonSymbol := by
  simp [symbol, parts, Numbering.comparisonSymbol, Numbering.labelSymbol]

/-- The symbol of the place behind a call. -/
@[simp] theorem symbol_call (numbering : Numbering) :
    (call numbering.scope numbering.calls).symbol = numbering.returnSymbol := by
  simp [symbol, parts, Numbering.returnSymbol, Numbering.labelSymbol]

/-- The symbol of a landmark is its owner alone, or its owner with a mark behind it. -/
theorem symbol_eq (landmark : Landmark) :
    landmark = .entry landmark.symbol ∨
      ∃ rest, landmark.symbol = landmark.owner ++ "$" ++ rest := by
  cases landmark with
  | entry name => exact .inl (by rw [symbol_entry])
  | label scope name => exact .inr ⟨name, by simp [symbol, parts, owner]⟩
  | comparison scope number => exact .inr ⟨"cmp$" ++ number.repr, by simp [symbol, parts, owner]⟩
  | call scope number => exact .inr ⟨"ret$" ++ number.repr, by simp [symbol, parts, owner]⟩

end Symbols

end Landmark

/-! ## Landmarks of commands -/

/-- The landmark that the instructions of a command place. -/
def Command.landmark? (numbering : Numbering) : Command → Option Landmark
  | .operate operation =>
    if operation.isComparison then some (.comparison numbering.scope numbering.comparisons)
    else none
  | .label name => some (.label numbering.scope name)
  | .function name _ => some (.entry name)
  | .call _ _ => some (.call numbering.scope numbering.calls)
  | .push _ _ | .pop _ _ | .goto _ | .ifGoto _ | .return => none

/-- The function whose entry a command is. -/
def Command.entered? : Command → Option String
  | .function name _ => some name
  | _ => none

/-- The functions of commands. -/
def entries (commands : List Command) : List String := commands.filterMap Command.entered?

/-- The landmarks of the rest of a unit. -/
def landmarksFrom (numbering : Numbering) : List Command → List Landmark
  | [] => []
  | command :: rest =>
    (command.landmark? numbering).toList ++ landmarksFrom (numbering.after command) rest

/-- The landmarks of a unit. -/
def unitLandmarks (unit : String × List Command) : List Landmark :=
  landmarksFrom { scope := unit.1 } unit.2

/-- The landmarks of a program. -/
def landmarks (program : List Site) : List Landmark :=
  program.filterMap fun site => site.command.landmark? site.numbering

section Units

variable {numbering : Numbering} {command : Command} {commands : List Command}
variable {landmark : Landmark}

/-- The commands that place landmarks. -/
theorem of_landmark? (own : command.landmark? numbering = some landmark) :
    (∃ name locals, command = .function name locals ∧ landmark = .entry name) ∨
      (∃ name, command = .label name ∧ landmark = .label numbering.scope name) ∨
      (∃ operation, command = .operate operation ∧ operation.isComparison = true ∧
        landmark = .comparison numbering.scope numbering.comparisons) ∨
      ∃ name args, command = .call name args ∧
        landmark = .call numbering.scope numbering.calls := by
  cases command with
  | operate operation =>
    obtain ⟨compares, same⟩ := Option.ite_none_right_eq_some.mp own
    exact .inr (.inr (.inl ⟨operation, rfl, compares, (Option.some.inj same).symm⟩))
  | function name locals => exact .inl ⟨name, locals, rfl, (Option.some.inj own).symm⟩
  | label name => exact .inr (.inl ⟨name, rfl, (Option.some.inj own).symm⟩)
  | call name args => exact .inr (.inr (.inr ⟨name, args, rfl, (Option.some.inj own).symm⟩))
  | _ => contradiction

/-- The landmarks of a program go by its places. -/
theorem landmarks_cons (site : Site) (rest : List Site) :
    landmarks (site :: rest) =
      (site.command.landmark? site.numbering).toList ++ landmarks rest := by
  rw [landmarks, List.filterMap_cons]
  cases site.command.landmark? site.numbering <;> rfl

/-- The landmarks of a unit do not depend on where its commands stand. -/
theorem landmarks_unitSites (unit : String) (region : Nat) :
    landmarks (unitSites unit region numbering commands) = landmarksFrom numbering commands := by
  induction commands generalizing region numbering with
  | nil => rfl
  | cons command rest ih =>
    rw [landmarksFrom, ← ih (if command.isEntry then region + 1 else region)]
    rw [unitSites, landmarks_cons]

/-- The landmarks of units are those of each unit in order. -/
theorem landmarks_sites (region : Nat) (units : List (String × List Command)) :
    landmarks (sites region units) = units.flatMap unitLandmarks := by
  induction units generalizing region with
  | nil => rfl
  | cons unit rest ih =>
    rw [List.flatMap_cons, ← ih (region + unit.2.length + 1), unitLandmarks,
      ← landmarks_unitSites unit.1 region]
    exact List.filterMap_append

/-- A landmark of the rest of a unit has a number that is not used yet, or the name of a function or
a label there. -/
def Landmark.Ahead (numbering : Numbering) (commands : List Command) : Landmark → Prop
  | .entry name => name ∈ entries commands
  | .label _ name => name ∈ labels commands
  | .comparison _ number => numbering.comparisons ≤ number
  | .call _ number => numbering.calls ≤ number

/-- Numbers do not go down. -/
theorem Numbering.le_after (numbering : Numbering) (command : Command) :
    numbering.comparisons ≤ (numbering.after command).comparisons ∧
      numbering.calls ≤ (numbering.after command).calls := by
  cases command with
  | operate operation =>
    cases operation <;> exact ⟨by simp [after, Operation.isComparison], Nat.le_refl _⟩
  | call name args => exact ⟨Nat.le_refl _, Nat.le_succ _⟩
  | _ => exact ⟨Nat.le_refl _, Nat.le_refl _⟩

/-- What is ahead behind a command is ahead in front of it. -/
theorem Landmark.Ahead.cons
    (ahead : landmark.Ahead (numbering.after command) commands) :
    landmark.Ahead numbering (command :: commands) := by
  obtain ⟨comparisons, calls⟩ := numbering.le_after command
  cases landmark with
  | entry name => exact ((List.sublist_cons_self command commands).filterMap _).subset ahead
  | label scope name => exact ((List.sublist_cons_self command commands).filterMap _).subset ahead
  | comparison scope number => exact Nat.le_trans comparisons ahead
  | call scope number => exact Nat.le_trans calls ahead

/-- The landmarks of the rest of a unit are ahead. -/
theorem ahead_of_mem (member : landmark ∈ landmarksFrom numbering commands) :
    landmark.Ahead numbering commands := by
  induction commands generalizing numbering with
  | nil => contradiction
  | cons command rest ih =>
    rcases List.mem_append.mp member with own | later
    · obtain ⟨name, locals, rfl, rfl⟩ | ⟨name, rfl, rfl⟩ | ⟨operation, rfl, -, rfl⟩ |
        ⟨name, args, rfl, rfl⟩ := of_landmark? (Option.mem_toList.mp own)
      · exact List.mem_cons_self
      · exact List.mem_cons_self
      · exact Nat.le_refl _
      · exact Nat.le_refl _
    · exact (ih later).cons

/-- The functions of the rest of a unit are those whose entries are there. -/
theorem entry_mem_landmarksFrom {name : String} :
    .entry name ∈ landmarksFrom numbering commands ↔ name ∈ entries commands := by
  refine ⟨fun member => ahead_of_mem member, fun entered => ?_⟩
  induction commands generalizing numbering with
  | nil => contradiction
  | cons command rest ih =>
    obtain ⟨entry, inside, enters⟩ := List.mem_filterMap.mp entered
    rcases List.mem_cons.mp inside with rfl | later
    · cases entry with
      | function other locals =>
        obtain rfl := Option.some.inj enters
        exact List.mem_cons_self
      | _ => contradiction
    · exact List.mem_append_right _ (ih (List.mem_filterMap.mpr ⟨entry, later, enters⟩))

/-- A landmark that a command shares with those behind it is the entry of a function or a label:
the numbers go up. -/
theorem named_of_shared (own : landmark ∈ command.landmark? numbering)
    (again : landmark ∈ landmarksFrom (numbering.after command) commands) :
    (∃ name locals, command = .function name locals ∧ name ∈ entries commands) ∨
      ∃ name, command = .label name ∧ landmark = .label numbering.scope name ∧
        name ∈ labels commands := by
  have ahead := ahead_of_mem again
  obtain ⟨name, locals, rfl, rfl⟩ | ⟨name, rfl, rfl⟩ | ⟨operation, rfl, compares, rfl⟩ |
    ⟨name, args, rfl, rfl⟩ := of_landmark? own
  · exact .inl ⟨name, locals, rfl, ahead⟩
  · exact .inr ⟨name, rfl, rfl, ahead⟩
  · rw [Numbering.after, if_pos compares] at ahead
    exact absurd ahead (Nat.lt_irrefl _)
  · exact absurd ahead (Nat.lt_irrefl _)

/-- Landmarks stay distinct if a command shares none with those behind it. -/
theorem nodup_landmarksFrom_cons
    (later : (landmarksFrom (numbering.after command) commands).Nodup)
    (fresh : ∀ landmark ∈ command.landmark? numbering,
      landmark ∉ landmarksFrom (numbering.after command) commands) :
    (landmarksFrom numbering (command :: commands)).Nodup := by
  refine List.nodup_append.mpr ⟨?_, later, ?_⟩
  · cases command.landmark? numbering with
    | none => exact List.nodup_nil
    | some own => exact List.nodup_singleton own
  · rintro landmark own _ again rfl
    exact fresh landmark (Option.mem_toList.mp own) again

/-- The landmarks of a unit are distinct if its functions and its labels are. -/
theorem nodup_landmarksFrom (functions : (entries commands).Nodup)
    (distinct : (labels commands).Nodup) : (landmarksFrom numbering commands).Nodup := by
  induction commands generalizing numbering with
  | nil => exact List.nodup_nil
  | cons command rest ih =>
    have fewer : (entries rest).Sublist (entries (command :: rest)) :=
      (List.sublist_cons_self _ _).filterMap _
    have fewerLabels : (labels rest).Sublist (labels (command :: rest)) :=
      (List.sublist_cons_self _ _).filterMap _
    refine nodup_landmarksFrom_cons (ih (fewer.nodup functions) (fewerLabels.nodup distinct)) ?_
    intro landmark own again
    obtain ⟨name, locals, rfl, inside⟩ | ⟨name, rfl, -, inside⟩ := named_of_shared own again
    · exact (List.nodup_cons.mp functions).1 inside
    · exact (List.nodup_cons.mp distinct).1 inside

/-- The landmarks of a unit belong to the functions of the unit, or to what its first commands
belong to. -/
theorem owner_of_mem (member : landmark ∈ landmarksFrom numbering commands) :
    landmark.owner = numbering.scope ∨ landmark.owner ∈ entries commands := by
  induction commands generalizing numbering with
  | nil => contradiction
  | cons command rest ih =>
    have fewer : entries rest ⊆ entries (command :: rest) :=
      ((List.sublist_cons_self _ _).filterMap _).subset
    rcases List.mem_append.mp member with own | later
    · obtain ⟨name, locals, rfl, rfl⟩ | ⟨name, rfl, rfl⟩ | ⟨operation, rfl, -, rfl⟩ |
        ⟨name, args, rfl, rfl⟩ := of_landmark? (Option.mem_toList.mp own)
      · exact .inr List.mem_cons_self
      · exact .inl rfl
      · exact .inl rfl
      · exact .inl rfl
    · rcases ih later with scope | inside
      · by_cases entry : command.isEntry = true
        · cases command with
          | function name locals => exact .inr (scope ▸ List.mem_cons_self)
          | _ => contradiction
        · exact .inl (scope.trans (scope_after (by simpa using entry)))
      · exact .inr (fewer inside)

/-- The mark between the parts of symbols is in no name. -/
theorem noMark_of_isName {name : String} (named : isName name.toList = true) :
    '$' ∉ name.toList := fun member =>
  absurd (List.all_eq_true.mp (all_isNameChar_of_isName named).2.1 _ member) (by decide)

/-- The landmarks of well-spelled commands are plain if the unit is. -/
theorem plain_of_mem (scopePlain : '$' ∉ numbering.scope.toList)
    (spelled : ∀ command ∈ commands, command.Spelled)
    (member : landmark ∈ landmarksFrom numbering commands) : landmark.Plain := by
  have digits (number : Nat) : '$' ∉ number.repr.toList := fun inside =>
    absurd (List.all_eq_true.mp (all_isNameChar_repr number).2 _ inside) (by decide)
  induction commands generalizing numbering with
  | nil => contradiction
  | cons command rest ih =>
    have ownSpelled := spelled command List.mem_cons_self
    rcases List.mem_append.mp member with own | later
    · obtain ⟨name, locals, rfl, rfl⟩ | ⟨name, rfl, rfl⟩ | ⟨operation, rfl, -, rfl⟩ |
        ⟨name, args, rfl, rfl⟩ := of_landmark? (Option.mem_toList.mp own)
      · exact List.forall_mem_singleton.mpr (noMark_of_isName ownSpelled.1)
      · exact List.forall_mem_cons.mpr
          ⟨scopePlain, List.forall_mem_singleton.mpr (noMark_of_isName ownSpelled)⟩
      · exact List.forall_mem_cons.mpr ⟨scopePlain, List.forall_mem_cons.mpr
          ⟨by decide, List.forall_mem_singleton.mpr (digits _)⟩⟩
      · exact List.forall_mem_cons.mpr ⟨scopePlain, List.forall_mem_cons.mpr
          ⟨by decide, List.forall_mem_singleton.mpr (digits _)⟩⟩
    · refine ih ?_ (fun other inside => spelled other (List.mem_cons_of_mem _ inside)) later
      by_cases entry : command.isEntry = true
      · cases command with
        | function name locals => exact noMark_of_isName ownSpelled.1
        | _ => contradiction
      · rw [scope_after (by simpa using entry)]
        exact scopePlain

end Units

/-! ## Labels of blocks -/

section Blocks

variable {layout : Layout} {unit : String} {numbering : Numbering} {command : Command}
variable {block : List Instruction}

/-- Labels of consecutive instructions. -/
theorem labelsOf_append (front back : List Instruction) :
    labelsOf (front ++ back) = labelsOf front ++ labelsOf back := List.filterMap_append

/-- Plain instructions are no labels. -/
theorem labelsOf_of_all_isPlain (plain : block.all isPlain = true) : labelsOf block = [] := by
  refine List.filterMap_eq_nil_iff.mpr fun instruction member => ?_
  have own := List.all_eq_true.mp plain instruction member
  cases instruction <;> first | rfl | contradiction

/-- The only label in the block of a command is its landmark. -/
theorem labelsOf_instructions (made : command.instructions layout unit numbering = .ok block) :
    labelsOf block = ((command.landmark? numbering).map Landmark.symbol).toList := by
  cases lowers_of_instructions made with
  | operate operation =>
    have compared : [numbering.comparisonSymbol] =
        [(Landmark.comparison numbering.scope numbering.comparisons).symbol] := by
      rw [Landmark.symbol_comparison]
    cases operation with
    | eq => exact compared
    | gt => exact compared
    | lt => exact compared
    | _ => rfl
  | @push segment index location located => cases location <;> rfl
  | @pop segment index location block located popped =>
    cases location with
    | constant value => contradiction
    | _ =>
      obtain rfl := Option.some.inj popped
      rfl
  | label name => exact congrArg (fun symbol => [symbol]) (Landmark.symbol_label numbering name).symm
  | goto name => rfl
  | ifGoto name => rfl
  | @function name locals inRange =>
    have zeros : labelsOf (List.replicate locals pushZero).flatten = [] := by
      refine labelsOf_of_all_isPlain (List.all_eq_true.mpr fun instruction member => ?_)
      obtain ⟨zero, copy, inside⟩ := List.mem_flatten.mp member
      obtain rfl := List.eq_of_mem_replicate copy
      have plain : pushZero.all isPlain = true := by decide
      exact List.all_eq_true.mp plain instruction inside
    rw [functionBlock, ← List.singleton_append, labelsOf_append, zeros]
    exact congrArg (fun symbol => [symbol]) (Landmark.symbol_entry name).symm
  | call name inRange => exact congrArg (fun symbol => [symbol]) (Landmark.symbol_call numbering).symm
  | «return» => rfl

/-- The labels among the blocks of a program are its landmarks. -/
theorem labelsOf_blocks {program : List Site} {blocks : List (List Instruction)}
    (made : List.Forall₂ (fun site block =>
      site.command.instructions layout site.unit site.numbering = .ok block) program blocks) :
    labelsOf blocks.flatten = (landmarks program).map Landmark.symbol := by
  induction made with
  | nil => rfl
  | @cons site block rest _ own _ ih =>
    rw [List.flatten_cons, labelsOf_append, ih, labelsOf_instructions own, landmarks_cons,
      List.map_append]
    cases site.command.landmark? site.numbering <;> rfl

end Blocks

end JackToolchain.Vm
