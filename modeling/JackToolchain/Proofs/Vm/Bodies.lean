import JackToolchain.Proofs.Vm.Separation
import Mathlib.Data.List.Perm.Basic

/-!
# Labels of functions

A program may use the name of a label again in another function. Its landmarks are still all
different, and so are their symbols, if labels differ within each function, the functions of all
units differ, and no function has the name of a unit: a label then belongs to one function or to the
start of one unit, and what has a number belongs to one unit.
-/
namespace JackToolchain.Vm

open Routine (labels)

/-- The commands in front of the first function, and those behind the entry of each function. -/
def bodies (commands : List Command) : List (List Command) := commands.splitOnP Command.isEntry

/-- The commands in front of the first function. -/
def firstBody (commands : List Command) : List Command :=
  commands.takeWhile fun command => !command.isEntry

section Bodies

variable {commands : List Command} {command : Command} {numbering : Numbering}
variable {scope name : String}

/-- The first body comes first. -/
theorem bodies_eq (commands : List Command) : ∃ rest, bodies commands = firstBody commands :: rest := by
  induction commands with
  | nil => exact ⟨[], rfl⟩
  | cons command commands ih =>
    obtain ⟨rest, split⟩ := ih
    rw [bodies, List.splitOnP_cons_eq_if_modifyHead, ← bodies, split]
    by_cases entry : command.isEntry = true
    · rw [if_pos entry, firstBody, firstBody, List.takeWhile_cons_of_neg (by simp [entry])]
      exact ⟨_, rfl⟩
    · rw [if_neg entry, firstBody, firstBody, List.takeWhile_cons_of_pos (by simp [entry])]
      exact ⟨rest, rfl⟩

/-- A function starts a new body. -/
theorem bodies_cons_entry (entry : command.isEntry = true) :
    bodies (command :: commands) = [] :: bodies commands := by
  rw [bodies, List.splitOnP_cons_eq_if_modifyHead, if_pos entry, bodies]

/-- Labels that differ within each body differ within each body of the rest, and the label at the
front is not in the first body of the rest. -/
theorem bodies_of_cons (distinct : ∀ body ∈ bodies (command :: commands), (labels body).Nodup) :
    (∀ body ∈ bodies commands, (labels body).Nodup) ∧
      ∀ name, command = .label name → name ∉ labels (firstBody commands) := by
  by_cases entry : command.isEntry = true
  · rw [bodies_cons_entry entry] at distinct
    refine ⟨fun body member => distinct body (List.mem_cons_of_mem _ member), ?_⟩
    rintro name rfl
    contradiction
  · obtain ⟨rest, split⟩ := bodies_eq commands
    have grown : bodies (command :: commands) = (command :: firstBody commands) :: rest := by
      rw [bodies, List.splitOnP_cons_eq_if_modifyHead, if_neg entry, ← bodies, split]
      rfl
    rw [grown] at distinct
    obtain ⟨first, others⟩ := List.forall_mem_cons.mp distinct
    have fewer : (labels (firstBody commands)).Sublist (labels (command :: firstBody commands)) :=
      (List.sublist_cons_self _ _).filterMap _
    refine ⟨?_, ?_⟩
    · rw [split]
      exact List.forall_mem_cons.mpr ⟨fewer.nodup first, others⟩
    · rintro name rfl
      exact (List.nodup_cons.mp first).1

/-- A label of the rest of a unit is one of the first body, or it belongs to a function of the
rest. -/
theorem label_of_mem (member : .label scope name ∈ landmarksFrom numbering commands) :
    (scope = numbering.scope ∧ name ∈ labels (firstBody commands)) ∨ scope ∈ entries commands := by
  induction commands generalizing numbering with
  | nil => contradiction
  | cons command rest ih =>
    rcases List.mem_append.mp member with own | later
    · obtain ⟨_, _, rfl, same⟩ | ⟨label, rfl, same⟩ | ⟨_, rfl, -, same⟩ | ⟨_, _, rfl, same⟩ :=
        of_landmark? (Option.mem_toList.mp own)
      · contradiction
      · obtain ⟨rfl, rfl⟩ := Landmark.label.inj same
        exact .inl ⟨rfl, List.mem_cons_self⟩
      · contradiction
      · contradiction
    · by_cases entry : command.isEntry = true
      · cases command with
        | function entered locals =>
          rcases ih later with ⟨rfl, -⟩ | inside
          · exact .inr List.mem_cons_self
          · exact .inr (List.mem_cons_of_mem _ inside)
        | _ => contradiction
      · have plain : command.isEntry = false := by simpa using entry
        rcases ih later with ⟨same, inside⟩ | inside
        · refine .inl ⟨same.trans (scope_after plain), ?_⟩
          rw [firstBody, List.takeWhile_cons_of_pos (by simp [plain])]
          exact ((List.sublist_cons_self _ _).filterMap _).subset inside
        · exact .inr (((List.sublist_cons_self _ _).filterMap _).subset inside)

/-- The landmarks of a unit are distinct if its functions are, and its labels within each body. -/
theorem nodup_landmarksFrom_of_bodies (functions : (numbering.scope :: entries commands).Nodup)
    (distinct : ∀ body ∈ bodies commands, (labels body).Nodup) :
    (landmarksFrom numbering commands).Nodup := by
  induction commands generalizing numbering with
  | nil => exact List.nodup_nil
  | cons command rest ih =>
    obtain ⟨restDistinct, fresh⟩ := bodies_of_cons distinct
    obtain ⟨noFunction, entered⟩ := List.nodup_cons.mp functions
    have fewer : (entries rest).Sublist (entries (command :: rest)) :=
      (List.sublist_cons_self _ _).filterMap _
    have restFunctions : ((numbering.after command).scope :: entries rest).Nodup := by
      by_cases entry : command.isEntry = true
      · cases command with
        | function name locals => exact entered
        | _ => contradiction
      · rw [scope_after (by simpa using entry)]
        exact List.nodup_cons.mpr ⟨fun again => noFunction (fewer.subset again),
          fewer.nodup entered⟩
    refine nodup_landmarksFrom_cons (ih restFunctions restDistinct) fun landmark own again => ?_
    obtain ⟨name, locals, rfl, inside⟩ | ⟨name, rfl, rfl, -⟩ := named_of_shared own again
    · exact (List.nodup_cons.mp entered).1 inside
    · rcases label_of_mem again with ⟨-, inside⟩ | owned
      · exact fresh name rfl inside
      · exact noFunction (fewer.subset owned)

end Bodies

/-! ## Programs -/

/-- Units whose functions and labels are told apart by their names: nothing is there twice in one
place, and the two names that a program has of its own are left to it. -/
structure Unambiguous (units : List (String × List Command)) : Prop where
  /-- The names of the units are different. -/
  names : (units.map Prod.fst).Nodup
  /-- The mark between the parts of symbols is in no name of a unit. -/
  plain : ∀ unit ∈ units, '$' ∉ unit.1.toList
  /-- No function is there twice. -/
  functions : (units.flatMap fun unit => entries unit.2).Nodup
  /-- No function has the name of a unit. -/
  apart : ∀ unit ∈ units, ∀ other ∈ units, unit.1 ∉ entries other.2
  /-- No label is twice in one function, or in front of the first function of a unit. -/
  labels : ∀ unit ∈ units, ∀ body ∈ bodies unit.2, (labels body).Nodup
  /-- No unit and no function has a name of the bootstrap or the halting loop. -/
  reserved : ∀ unit ∈ units, ∀ name ∈ unit.1 :: entries unit.2,
    name ≠ bootstrapUnit ∧ name ≠ haltLabel

section Programs

variable {units : List (String × List Command)} {bootstrap : Bool} {landmark : Landmark}

/-- What owns landmarks is different throughout a program. -/
theorem Unambiguous.nodup_owners (given : Unambiguous units) :
    (units.flatMap fun unit => unit.1 :: entries unit.2).Nodup := by
  have parts : (units.map Prod.fst ++ units.flatMap fun unit => entries unit.2).Nodup := by
    refine List.nodup_append.mpr ⟨given.names, given.functions, ?_⟩
    rintro name isUnit _ isFunction rfl
    obtain ⟨unit, member, rfl⟩ := List.mem_map.mp isUnit
    obtain ⟨other, otherMember, entered⟩ := List.mem_flatMap.mp isFunction
    exact given.apart unit member other otherMember entered
  have joined := List.flatMap_append_perm units (fun unit => [unit.1]) fun unit => entries unit.2
  have single : (units.flatMap fun unit => [unit.1]) = units.map Prod.fst :=
    List.map_eq_flatMap.symm
  rw [single] at joined
  exact joined.nodup_iff.mp parts

/-- The landmarks of the units are distinct. -/
theorem Unambiguous.nodup_landmarks (given : Unambiguous units) :
    (units.flatMap unitLandmarks).Nodup := by
  obtain ⟨own, apart⟩ := List.nodup_flatMap.mp given.nodup_owners
  refine List.nodup_flatMap.mpr ⟨fun unit member => ?_, ?_⟩
  · exact nodup_landmarksFrom_of_bodies (own unit member) (given.labels unit member)
  · refine apart.imp fun {left right} disjoint landmark first second => ?_
    have owner {unit : String × List Command} (placed : landmark ∈ unitLandmarks unit) :
        landmark.owner ∈ unit.1 :: entries unit.2 :=
      List.mem_cons.mpr (owner_of_mem placed)
    exact disjoint (owner first) (owner second)

/-- A landmark of a unit belongs to the unit or one of its functions, so its owner has no name of
the bootstrap or the halting loop. -/
theorem Unambiguous.owner_ne (given : Unambiguous units)
    (placed : landmark ∈ units.flatMap unitLandmarks) :
    landmark.owner ≠ bootstrapUnit ∧ landmark.owner ≠ haltLabel := by
  obtain ⟨unit, member, own⟩ := List.mem_flatMap.mp placed
  exact given.reserved unit member _ (List.mem_cons.mpr (owner_of_mem own))

/-- The landmarks of a program are distinct. -/
theorem Unambiguous.nodup (given : Unambiguous units) (bootstrap : Bool) :
    (landmarks (programSites bootstrap units)).Nodup := by
  rw [landmarks_programSites]
  cases bootstrap with
  | false => exact given.nodup_landmarks
  | true =>
    refine List.nodup_cons.mpr ⟨fun member => ?_, given.nodup_landmarks⟩
    exact (given.owner_ne member).1 rfl

/-- The labels of a program are distinct: the symbols of its landmarks and, without a bootstrap,
that of the halting loop. -/
theorem Unambiguous.nodup_symbols (given : Unambiguous units)
    (spelled : ∀ unit ∈ units, ∀ command ∈ unit.2, command.Spelled) (bootstrap : Bool) :
    ((landmarks (programSites bootstrap units)).map Landmark.symbol ++
      if bootstrap then [] else [haltLabel]).Nodup := by
  have plain {landmark : Landmark} (placed : landmark ∈ units.flatMap unitLandmarks) :
      landmark.Plain := by
    obtain ⟨unit, member, own⟩ := List.mem_flatMap.mp placed
    exact plain_of_mem (given.plain unit member) (spelled unit member) own
  have allPlain : ∀ landmark ∈ landmarks (programSites bootstrap units), landmark.Plain := by
    rw [landmarks_programSites]
    refine List.forall_mem_append.mpr ⟨?_, fun landmark placed => plain placed⟩
    split
    · exact List.forall_mem_singleton.mpr (by unfold Landmark.Plain; decide)
    · exact List.forall_mem_nil _
  refine List.nodup_append.mpr ⟨?_, by split <;> simp, ?_⟩
  · refine (given.nodup bootstrap).map_on fun left first right second same => ?_
    exact Landmark.symbol_inj (allPlain left first) (allPlain right second) same
  · rintro name own _ last rfl
    cases bootstrap with
    | true => contradiction
    | false =>
      obtain ⟨landmark, placed, symbol⟩ := List.mem_map.mp own
      rw [List.mem_singleton.mp last] at symbol
      rw [landmarks_programSites] at placed
      rcases landmark.symbol_eq with entry | ⟨rest, marked⟩
      · refine (given.owner_ne placed).2 ?_
        rw [entry, symbol]
        rfl
      · have mark : '$' ∈ haltLabel.toList := by
          rw [← symbol, marked, String.toList_append, String.toList_append]
          exact List.mem_append_left _ (List.mem_append_right _ (by decide))
        exact absurd mark (by decide)

end Programs

end JackToolchain.Vm
