import JackToolchain.Proofs.Vm.Landmarks

/-!
# Units made of functions

A unit that starts with the entry of a function, and in which every jump goes to a label of its own
function, keeps all it does inside its functions: its labels and its jumps belong to the same place
of the same region, and nothing belongs to the start of the unit.
-/
namespace JackToolchain.Vm

open Routine (labels)

/-- Commands whose jumps all go to labels with the given names. -/
def JumpsTo (names : List String) (code : List Command) : Prop :=
  ∀ command ∈ code, ∀ name ∈ command.target?, name ∈ names

/-- Commands that are functions one behind another, each of which jumps to its own labels only. -/
inductive Functional : List Command → Prop
  | nil : Functional []
  | function {name : String} {locals : Nat} {body rest : List Command}
      (plain : ∀ command ∈ body, command.isEntry = false) (inside : JumpsTo (labels body) body)
      (others : Functional rest) : Functional (.function name locals :: (body ++ rest))

section Jumps

variable {names others : List String} {front back code : List Command}

/-- Jumps of consecutive commands. -/
theorem JumpsTo.append (first : JumpsTo names front) (second : JumpsTo names back) :
    JumpsTo names (front ++ back) := List.forall_mem_append.mpr ⟨first, second⟩

/-- Jumps to some names go to more names. -/
theorem JumpsTo.mono (inside : JumpsTo names code) (more : names ⊆ others) :
    JumpsTo others code :=
  fun command member name jumps => more (inside command member name jumps)

/-- Commands that do not jump. -/
theorem JumpsTo.of_straight (straight : ∀ command ∈ code, command.target? = none) :
    JumpsTo names code := by
  intro command member name jumps
  rw [straight command member] at jumps
  contradiction

end Jumps

/-- A function adds its name to those of the commands behind it. -/
theorem entries_function {name : String} {locals : Nat} {body rest : List Command}
    (plain : ∀ command ∈ body, command.isEntry = false) :
    entries (.function name locals :: (body ++ rest)) = name :: entries rest := by
  have none : entries body = [] := by
    refine List.filterMap_eq_nil_iff.mpr fun command member => ?_
    have own := plain command member
    cases command <;> first | rfl | contradiction
  have split : entries (body ++ rest) = entries body ++ entries rest := List.filterMap_append
  change name :: entries (body ++ rest) = _
  rw [split, none, List.nil_append]

section Units

variable {unit : String} {region : Nat} {numbering : Numbering} {commands front back : List Command}
variable {site : Site} {units : List (String × List Command)}

/-- The places of a unit have its name and its commands; their scope is the one that the unit starts
with or one of its functions. -/
theorem of_mem_unitSites (place : site ∈ unitSites unit region numbering commands) :
    site.unit = unit ∧ site.command ∈ commands ∧
      (site.numbering.scope = numbering.scope ∨ site.numbering.scope ∈ entries commands) := by
  induction commands generalizing region numbering with
  | nil => contradiction
  | cons command rest ih =>
    rcases List.mem_cons.mp place with rfl | later
    · exact ⟨rfl, List.mem_cons_self, .inl rfl⟩
    · obtain ⟨own, inside, scope⟩ := ih later
      have fewer : entries rest ⊆ entries (command :: rest) :=
        ((List.sublist_cons_self _ _).filterMap _).subset
      refine ⟨own, List.mem_cons_of_mem _ inside, ?_⟩
      rcases scope with same | entered
      · by_cases entry : command.isEntry = true
        · cases command with
          | function name locals => exact .inr (same ▸ List.mem_cons_self)
          | _ => contradiction
        · exact .inl (same.trans (scope_after (by simpa using entry)))
      · exact .inr (fewer entered)

/-- Every command of a unit has a place. -/
theorem exists_mem_unitSites {command : Command} (member : command ∈ commands) :
    ∃ site ∈ unitSites unit region numbering commands, site.command = command := by
  induction commands generalizing region numbering with
  | nil => contradiction
  | cons first rest ih =>
    rcases List.mem_cons.mp member with rfl | later
    · exact ⟨_, List.mem_cons_self, rfl⟩
    · obtain ⟨site, place, own⟩ := ih later
      exact ⟨site, List.mem_cons_of_mem _ place, own⟩

/-- Commands without an entry stay in one region and one scope. -/
theorem place_of_plain (plain : ∀ command ∈ commands, command.isEntry = false)
    (place : site ∈ unitSites unit region numbering commands) :
    site.region = region ∧ site.numbering.scope = numbering.scope := by
  induction commands generalizing numbering with
  | nil => contradiction
  | cons command rest ih =>
    obtain ⟨own, others⟩ := List.forall_mem_cons.mp plain
    have noEntry : ¬ command.isEntry = true := by simp [own]
    rcases List.mem_cons.mp place with rfl | later
    · exact ⟨if_neg noEntry, rfl⟩
    · rw [if_neg noEntry] at later
      obtain ⟨same, scope⟩ := ih others later
      exact ⟨same, scope.trans (scope_after own)⟩

/-- What follows commands without an entry is in the same region and the same scope. -/
theorem unitSites_append (plain : ∀ command ∈ front, command.isEntry = false) :
    ∃ later : Numbering, later.scope = numbering.scope ∧
      unitSites unit region numbering (front ++ back) =
        unitSites unit region numbering front ++ unitSites unit region later back := by
  induction front generalizing numbering with
  | nil => exact ⟨numbering, rfl, rfl⟩
  | cons command rest ih =>
    obtain ⟨own, others⟩ := List.forall_mem_cons.mp plain
    have noEntry : ¬ command.isEntry = true := by simp [own]
    obtain ⟨later, scope, split⟩ := @ih (numbering.after command) others
    refine ⟨later, scope.trans (scope_after own), ?_⟩
    rw [List.cons_append, unitSites, unitSites, if_neg noEntry, List.cons_append, split]

/-- A jump of a unit made of functions goes to a label of the same function. -/
theorem label_of_target (functional : Functional commands)
    (place : site ∈ unitSites unit region numbering commands) {name : String}
    (jumps : name ∈ site.command.target?) :
    ∃ other ∈ unitSites unit region numbering commands, other.command = .label name ∧
      other.region = site.region ∧ other.numbering.scope = site.numbering.scope := by
  induction functional generalizing region numbering with
  | nil => contradiction
  | @function entered locals body rest plain inside others ih =>
    obtain ⟨later, -, split⟩ := @unitSites_append unit (region + 1)
      (numbering.after (.function entered locals)) body rest plain
    have whole : unitSites unit region numbering (.function entered locals :: (body ++ rest)) =
        ⟨unit, region + 1, numbering, .function entered locals⟩ ::
          (unitSites unit (region + 1) (numbering.after (.function entered locals)) body ++
            unitSites unit (region + 1) later rest) := by
      rw [← split]
      rfl
    rw [whole] at place ⊢
    rcases List.mem_cons.mp place with rfl | place
    · contradiction
    · rcases List.mem_append.mp place with own | behind
      · obtain ⟨region, scope⟩ := place_of_plain plain own
        obtain ⟨command, member, named⟩ := List.mem_filterMap.mp
          (inside _ (of_mem_unitSites own).2.1 name jumps)
        obtain ⟨other, there, same⟩ := exists_mem_unitSites member
        obtain ⟨otherRegion, otherScope⟩ := place_of_plain plain there
        refine ⟨other, List.mem_cons_of_mem _ (List.mem_append_left _ there), ?_,
          otherRegion.trans region.symm, otherScope.trans scope.symm⟩
        cases command with
        | label own => rw [same, Option.some.inj named]
        | _ => contradiction
      · obtain ⟨other, there, rest⟩ := ih behind
        exact ⟨other, List.mem_cons_of_mem _ (List.mem_append_right _ there), rest⟩

/-- The landmarks of a unit made of functions belong to its functions. -/
theorem owner_mem_entries (functional : Functional commands) {landmark : Landmark}
    (member : landmark ∈ landmarksFrom numbering commands) :
    landmark.owner ∈ entries commands := by
  cases functional with
  | nil => contradiction
  | @function name locals body rest plain inside others =>
    rcases List.mem_append.mp member with own | later
    · obtain rfl := Option.some.inj (Option.mem_toList.mp own)
      exact List.mem_cons_self
    · rcases owner_of_mem later with scope | entered
      · exact List.mem_cons.mpr (.inl scope)
      · exact List.mem_cons_of_mem _ entered

end Units

/-! ## Programs -/

section Programs

variable {region : Nat} {units : List (String × List Command)} {site : Site}

/-- Every place of units is a place of one of them. -/
theorem exists_of_mem_sites (place : site ∈ sites region units) :
    ∃ unit ∈ units, ∃ start, site ∈ unitSites unit.1 start { scope := unit.1 } unit.2 ∧
      unitSites unit.1 start { scope := unit.1 } unit.2 ⊆ sites region units := by
  induction units generalizing region with
  | nil => contradiction
  | cons unit rest ih =>
    rcases List.mem_append.mp place with own | later
    · exact ⟨unit, List.mem_cons_self, region, own, List.subset_append_left _ _⟩
    · obtain ⟨other, member, start, inside, subset⟩ := ih later
      exact ⟨other, List.mem_cons_of_mem _ member, start, inside,
        fun place there => List.mem_append_right _ (subset there)⟩

/-- Every command of units has a place. -/
theorem exists_mem_sites {unit : String × List Command} {command : Command}
    (member : unit ∈ units) (inside : command ∈ unit.2) :
    ∃ site ∈ sites region units, site.unit = unit.1 ∧ site.command = command := by
  induction units generalizing region with
  | nil => contradiction
  | cons first rest ih =>
    rcases List.mem_cons.mp member with rfl | later
    · obtain ⟨site, place, own⟩ := exists_mem_unitSites inside
      exact ⟨site, List.mem_append_left _ place, (of_mem_unitSites place).1, own⟩
    · obtain ⟨site, place, own⟩ := ih later
      exact ⟨site, List.mem_append_right _ place, own⟩

end Programs

end JackToolchain.Vm
