import JackToolchain.Proofs.Vm.Functions
import JackToolchain.Proofs.Vm.Lowering

/-!
# Symbols of a program

Everything that has a symbol in a program has one of its own: the entries of functions, the labels,
the ends of comparisons, the returns of calls, the static variables and the halting loop. Symbols of
static variables and of entries have a dot and no dollar sign, and only the former have nothing but
digits behind the last dot; the other symbols of functions have a dollar sign; and the names of the
platform have neither.
-/
namespace JackToolchain.Vm

open Assembly (isSymbol predefined)
open Routine (labels)

/-! ## Holders -/

/-- What has a symbol in a program. -/
inductive Holder where
  /-- A place with a label. -/
  | place (landmark : Landmark)
  /-- A static variable of a unit. -/
  | static (unit : String) (index : Nat)
  /-- The halting loop. -/
  | halt
deriving DecidableEq

/-- The symbol of a holder. -/
def Holder.symbol : Holder → String
  | .place landmark => landmark.symbol
  | .static unit index => staticSymbol unit index
  | .halt => haltLabel

/-- What has a symbol in a program of these units: what its commands place and use, and without a
bootstrap the halting loop. -/
def Holder.Of (bootstrap : Bool) (units : List (String × List Command)) : Holder → Prop
  | .place landmark => landmark ∈ landmarks (programSites bootstrap units)
  | .static unit index =>
    ∃ site ∈ programSites bootstrap units, site.unit = unit ∧ site.command.UsesStatic index
  | .halt => bootstrap = false

/-! ## Units -/

/-- A name with a dot behind which there is no other dot and not only a number. -/
def IsQualified (name : String) : Prop :=
  ∃ front back, name.toList = front ++ '.' :: back ∧ '.' ∉ back ∧ ∃ c ∈ back, c.isDigit = false

/-- A unit that can be part of a program: it is made of functions with qualified names and different
labels, and its commands have instructions. -/
structure Linkable (unit : String × List Command) : Prop where
  /-- Its name is a symbol. -/
  symbol : isSymbol unit.1.toList = true
  /-- The mark between the parts of symbols is not in its name. -/
  plain : '$' ∉ unit.1.toList
  /-- Its commands are well-spelled. -/
  spelled : ∀ command ∈ unit.2, command.Spelled
  /-- The numbers of its commands are in range. -/
  inRange : ∀ command ∈ unit.2, command.InRange {}
  /-- It is made of functions. -/
  functional : Functional unit.2
  /-- Its labels are different. -/
  labels : (labels unit.2).Nodup
  /-- The names of its functions are qualified. -/
  qualified : ∀ name ∈ entries unit.2, IsQualified name

/-- Units that can be linked with each other: each of them can be part of a program, and no name of
a unit or of a function is there twice. -/
structure AllLinkable (units : List (String × List Command)) : Prop where
  /-- Each unit. -/
  each : ∀ unit ∈ units, Linkable unit
  /-- The names of the units. -/
  names : (units.map Prod.fst).Nodup
  /-- The names of the functions. -/
  functions : (units.flatMap fun unit => entries unit.2).Nodup

section Units

variable {unit : String × List Command} {units : List (String × List Command)}
variable {landmark : Landmark} {bootstrap : Bool} {name : String}

/-- A qualified name has a dot. -/
theorem IsQualified.dot (qualified : IsQualified name) : '.' ∈ name.toList := by
  obtain ⟨front, back, text, -⟩ := qualified
  rw [text]
  exact List.mem_append_right _ List.mem_cons_self

/-- A landmark of a unit is plain, and it belongs to one of the functions of the unit. -/
theorem Linkable.of_landmark (linkable : Linkable unit) (member : landmark ∈ unitLandmarks unit) :
    landmark.Plain ∧ landmark.owner ∈ entries unit.2 ∧ IsQualified landmark.owner := by
  have owner := owner_mem_entries linkable.functional member
  exact ⟨plain_of_mem linkable.plain linkable.spelled member, owner, linkable.qualified _ owner⟩

/-- The landmarks of units are all different. -/
theorem AllLinkable.nodup_landmarks (linkable : AllLinkable units) :
    (units.flatMap unitLandmarks).Nodup := by
  obtain ⟨own, apart⟩ := List.nodup_flatMap.mp linkable.functions
  refine List.nodup_flatMap.mpr ⟨fun unit member => ?_, ?_⟩
  · exact nodup_landmarksFrom (own unit member) (linkable.each unit member).labels
  · refine apart.imp_of_mem fun {left right} inLeft inRight disjoint landmark first second => ?_
    exact disjoint ((linkable.each left inLeft).of_landmark first).2.1
      ((linkable.each right inRight).of_landmark second).2.1

/-- The place behind the call of a bootstrap. -/
def bootstrapLandmark : Landmark := .call bootstrapUnit 0

/-- The landmarks of a program are those of its units, behind that of a bootstrap. -/
theorem landmarks_programSites (bootstrap : Bool) (units : List (String × List Command)) :
    landmarks (programSites bootstrap units) =
      (if bootstrap then [bootstrapLandmark] else []) ++ units.flatMap unitLandmarks := by
  unfold programSites
  cases bootstrap with
  | false => exact landmarks_sites 0 units
  | true =>
    rw [if_pos rfl, if_pos rfl, landmarks_cons, landmarks_sites]
    rfl

/-- A name without the mark between the parts of symbols is the symbol of a place of units exactly
if it is a function of one of them. -/
theorem mem_symbols_iff_of_noMark (noMark : '$' ∉ name.toList) :
    name ∈ (units.flatMap unitLandmarks).map Landmark.symbol ↔
      name ∈ units.flatMap fun unit => entries unit.2 := by
  rw [List.mem_map, List.mem_flatMap]
  constructor
  · rintro ⟨landmark, placed, rfl⟩
    obtain ⟨unit, member, own⟩ := List.mem_flatMap.mp placed
    rcases landmark.symbol_eq with entry | ⟨rest, marked⟩
    · rw [entry] at own
      exact ⟨unit, member, entry_mem_landmarksFrom.mp own⟩
    · rw [marked] at noMark
      simp at noMark
  · rintro ⟨unit, member, entered⟩
    exact ⟨.entry name, List.mem_flatMap.mpr ⟨unit, member, entry_mem_landmarksFrom.mpr entered⟩,
      Landmark.symbol_entry name⟩

/-- A landmark of a program is that of a bootstrap or one of a unit. -/
theorem AllLinkable.of_mem_landmarks (linkable : AllLinkable units)
    (member : landmark ∈ landmarks (programSites bootstrap units)) :
    landmark = bootstrapLandmark ∨ landmark.Plain ∧ IsQualified landmark.owner := by
  rw [landmarks_programSites] at member
  rcases List.mem_append.mp member with own | others
  · cases bootstrap with
    | false => contradiction
    | true => exact .inl (List.mem_singleton.mp own)
  · obtain ⟨unit, inside, own⟩ := List.mem_flatMap.mp others
    obtain ⟨plain, -, qualified⟩ := (linkable.each unit inside).of_landmark own
    exact .inr ⟨plain, qualified⟩

/-- The landmarks of a program are all different. -/
theorem AllLinkable.nodup (linkable : AllLinkable units) (bootstrap : Bool) :
    (landmarks (programSites bootstrap units)).Nodup := by
  rw [landmarks_programSites]
  cases bootstrap with
  | false => exact linkable.nodup_landmarks
  | true =>
    refine List.nodup_cons.mpr ⟨fun member => ?_, linkable.nodup_landmarks⟩
    obtain ⟨unit, inside, own⟩ := List.mem_flatMap.mp member
    have dot := ((linkable.each unit inside).of_landmark own).2.2.dot
    exact absurd dot (by decide)

/-- The landmarks of a program are plain. -/
theorem AllLinkable.plain (linkable : AllLinkable units)
    (member : landmark ∈ landmarks (programSites bootstrap units)) : landmark.Plain := by
  obtain rfl | ⟨plain, -⟩ := linkable.of_mem_landmarks member
  · unfold Landmark.Plain
    decide
  · exact plain

/-- The symbol of a landmark is a qualified name, or it has the mark between the parts of
symbols. -/
theorem AllLinkable.symbol_cases (linkable : AllLinkable units)
    (member : landmark ∈ landmarks (programSites bootstrap units)) :
    IsQualified landmark.symbol ∨ '$' ∈ landmark.symbol.toList := by
  rcases landmark.symbol_eq with entry | ⟨rest, marked⟩
  · rcases linkable.of_mem_landmarks member with rfl | ⟨-, qualified⟩
    · exact .inr (by decide)
    · rw [entry, Landmark.owner] at qualified
      exact .inl qualified
  · refine .inr ?_
    rw [marked, String.toList_append, String.toList_append]
    exact List.mem_append_left _ (List.mem_append_right _ (by decide))

end Units

/-! ## Symbols -/

section Symbols

variable {unit other : String} {index another : Nat}

/-- The symbol of a static variable, by its characters. -/
theorem toList_staticSymbol (unit : String) (index : Nat) :
    (staticSymbol unit index).toList = unit.toList ++ '.' :: index.repr.toList := by
  rw [staticSymbol, String.toList_append, String.toList_append, List.append_assoc]
  rfl

/-- A number has no dot. -/
theorem noDot_repr (index : Nat) : '.' ∉ index.repr.toList := fun member =>
  absurd (Assembly.isDigit_of_mem_repr member) (by decide)

/-- The symbol of a static variable determines its unit and its number. -/
theorem staticSymbol_inj (same : staticSymbol unit index = staticSymbol other another) :
    unit = other ∧ index = another := by
  have texts := congrArg String.toList same
  rw [toList_staticSymbol, toList_staticSymbol] at texts
  obtain ⟨front, back⟩ := Text.eq_of_last_mark texts (noDot_repr index) (noDot_repr another)
  exact ⟨String.toList_inj.mp front, Assembly.repr_inj (String.toList_inj.mp back)⟩

/-- The symbol of a static variable is no qualified name. -/
theorem not_isQualified_staticSymbol : ¬ IsQualified (staticSymbol unit index) := by
  rintro ⟨front, back, text, noDot, c, member, noDigit⟩
  rw [toList_staticSymbol] at text
  obtain ⟨-, rfl⟩ := Text.eq_of_last_mark text (noDot_repr index) noDot
  rw [Assembly.isDigit_of_mem_repr member] at noDigit
  contradiction

/-- The mark between the parts of symbols is in the symbol of a static variable only if it is in the
name of the unit. -/
theorem noMark_staticSymbol (plain : '$' ∉ unit.toList) :
    '$' ∉ (staticSymbol unit index).toList := by
  rw [toList_staticSymbol, List.mem_append, List.mem_cons]
  rintro (own | mark | digit)
  · exact plain own
  · exact absurd mark (by decide)
  · exact absurd (Assembly.isDigit_of_mem_repr digit) (by decide)

/-- The names of the platform have neither a dot nor the mark between the parts of symbols. -/
theorem bare_of_predefined {name : String} (member : name ∈ predefined.map Prod.fst) :
    '.' ∉ name.toList ∧ '$' ∉ name.toList := by
  have all : ∀ name ∈ predefined.map Prod.fst, '.' ∉ name.toList ∧ '$' ∉ name.toList := by
    decide
  exact all name member

variable {units : List (String × List Command)} {bootstrap : Bool} {left right holder : Holder}

/-- A place of a program is the call of a bootstrap or a place of a unit. -/
theorem of_mem_programSites {site : Site} (place : site ∈ programSites bootstrap units) :
    site = bootstrapSite ∨ ∃ unit ∈ units, ∃ start,
      site ∈ unitSites unit.1 start { scope := unit.1 } unit.2 ∧
        unitSites unit.1 start { scope := unit.1 } unit.2 ⊆ programSites bootstrap units := by
  unfold programSites at place ⊢
  cases bootstrap with
  | false => exact .inr (exists_of_mem_sites place)
  | true =>
    rcases List.mem_cons.mp place with rfl | later
    · exact .inl rfl
    · obtain ⟨unit, member, start, inside, subset⟩ := exists_of_mem_sites later
      exact .inr ⟨unit, member, start, inside, List.subset_cons_of_subset _ subset⟩

/-- The units of a program have plain names. -/
theorem AllLinkable.plain_unit (linkable : AllLinkable units) {site : Site}
    (place : site ∈ programSites bootstrap units) : '$' ∉ site.unit.toList := by
  obtain rfl | ⟨unit, member, start, inside, -⟩ := of_mem_programSites place
  · decide
  · rw [(of_mem_unitSites inside).1]
    exact (linkable.each unit member).plain

/-- A landmark has no symbol of a static variable. -/
theorem AllLinkable.symbol_ne_static (linkable : AllLinkable units) {landmark : Landmark}
    (member : landmark ∈ landmarks (programSites bootstrap units)) (plain : '$' ∉ unit.toList) :
    landmark.symbol ≠ staticSymbol unit index := by
  intro same
  rcases linkable.symbol_cases member with qualified | marked
  · exact not_isQualified_staticSymbol (same ▸ qualified)
  · exact noMark_staticSymbol plain (same ▸ marked)

/-- A landmark does not have a symbol with neither a dot nor a mark. -/
theorem AllLinkable.symbol_ne_bare (linkable : AllLinkable units) {landmark : Landmark}
    (member : landmark ∈ landmarks (programSites bootstrap units)) {name : String}
    (bare : '.' ∉ name.toList ∧ '$' ∉ name.toList) : landmark.symbol ≠ name := by
  rintro rfl
  rcases linkable.symbol_cases member with qualified | marked
  · exact bare.1 qualified.dot
  · exact bare.2 marked

/-- A static variable has a symbol with a dot. -/
theorem dot_staticSymbol (unit : String) (index : Nat) :
    '.' ∈ (staticSymbol unit index).toList := by
  rw [toList_staticSymbol]
  exact List.mem_append_right _ List.mem_cons_self

/-- What has a symbol in a program is determined by the symbol. -/
theorem AllLinkable.symbol_inj (linkable : AllLinkable units) (first : left.Of bootstrap units)
    (second : right.Of bootstrap units) (same : left.symbol = right.symbol) : left = right := by
  have halt : '.' ∉ haltLabel.toList ∧ '$' ∉ haltLabel.toList := by decide
  cases left with
  | place landmark =>
    cases right with
    | place other =>
      rw [Landmark.symbol_inj (linkable.plain first) (linkable.plain second) same]
    | static unit index =>
      obtain ⟨site, place, rfl, -⟩ := second
      exact absurd same (linkable.symbol_ne_static first (linkable.plain_unit place))
    | halt => exact absurd same (linkable.symbol_ne_bare first halt)
  | static unit index =>
    obtain ⟨site, place, rfl, -⟩ := first
    cases right with
    | place landmark =>
      exact absurd same.symm (linkable.symbol_ne_static second (linkable.plain_unit place))
    | static other another =>
      obtain ⟨rfl, rfl⟩ := staticSymbol_inj same
      rfl
    | halt =>
      have dot := dot_staticSymbol site.unit index
      have same : staticSymbol site.unit index = haltLabel := same
      exact absurd (same ▸ dot) halt.1
  | halt =>
    cases right with
    | place landmark => exact absurd same.symm (linkable.symbol_ne_bare second halt)
    | static unit index =>
      have dot := dot_staticSymbol unit index
      have same : haltLabel = staticSymbol unit index := same
      exact absurd (same ▸ dot) halt.1
    | halt => rfl

/-- The symbols of a program are no names of the platform. -/
theorem AllLinkable.symbol_notMem_predefined (linkable : AllLinkable units)
    (held : holder.Of bootstrap units) : holder.symbol ∉ predefined.map Prod.fst := by
  intro member
  have bare := bare_of_predefined member
  cases holder with
  | place landmark => exact linkable.symbol_ne_bare held bare rfl
  | static unit index => exact bare.1 (dot_staticSymbol unit index)
  | halt =>
    have none : haltLabel ∉ predefined.map Prod.fst := by decide
    exact none member

end Symbols

end JackToolchain.Vm
