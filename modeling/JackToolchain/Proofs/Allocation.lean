import JackToolchain.Proofs.Building
import JackToolchain.Proofs.Vm.Requests
import Mathlib.Data.List.Perm.Subperm
import Mathlib.Data.List.TakeWhile

/-!
# Allocation of cells

The assembler gives the cells behind those of the platform to the symbols that a program leaves to
it, one after another in the order of their uses: to static variables and to functions that are
called but are in no unit. So the cell of a static variable can be counted off in the commands.
-/
namespace JackToolchain

open Assembly (Instruction Written codeOf instructionsOf isSymbolChar isVariable labelsOf predefined
  symbolsOf variablesBefore)
open Machine
open Text (isBlank)
open Vm

/-! ## Generated units -/

/-- Commands as a class has them: functions with qualified names, whose labels end in numbers. -/
structure Vm.Generated (commands : List Command) : Prop where
  /-- The commands are well-spelled. -/
  spelled : ∀ command ∈ commands, command.Spelled
  /-- They are functions one behind another. -/
  functional : Functional commands
  /-- The names of the functions are qualified. -/
  qualified : ∀ name ∈ entries commands, IsQualified name
  /-- The labels end in numbers. -/
  numbered : ∀ name ∈ Routine.labels commands,
    ∃ stem number, name = Jack.numberedLabel stem number

/-- The commands of a class are generated. -/
theorem Jack.generated_of_compile {source : String} {code : List Command}
    (short : source.length < Text.bound32) (compiled : Jack.compile {} source = .ok code) :
    Generated code := by
  have named : ({} : RuntimeNames).Named := ⟨by decide, by decide, by decide, by decide, by decide⟩
  obtain ⟨cls, read, made⟩ := bind_eq_ok.mp compiled
  obtain ⟨known, -, subroutinesMade⟩ := bind_eq_ok.mp made
  obtain ⟨functional, -, high, numbered⟩ := Jack.functional_of_subroutines subroutinesMade
  constructor
  case spelled => exact Jack.spelled_of_compile named short compiled
  case functional => exact functional
  case qualified =>
    intro name entered
    obtain ⟨subroutine, inside, rfl⟩ := (Jack.mem_entries_iff made).mp entered
    have fits := (Jack.fits_of_readClass read).subroutines subroutine inside
    exact Jack.isQualified_qualify fits.name
  case numbered =>
    intro name label
    obtain ⟨stem, number, -, -, same⟩ := numbered.within name label
    exact ⟨stem, number, same⟩

/-! ## Names in the text -/

section Names

variable {unit name : String} {numbering : Numbering} {command : Command}
variable {block : List Instruction} {read : Instruction}

/-- A name is read as it is written if it has a mark in it, nothing in front of the mark starts a
comment and nothing behind it is a slash or white space. -/
theorem Assembly.Written.marked {front back : List Char} {mark : Char}
    (text : name.toList = front ++ mark :: back) (bare : ¬ ['/', '/'] <:+: front)
    (plain : mark ≠ '/' ∧ isBlank mark = false ∧ mark.isDigit = false)
    (visible : ∀ c ∈ back, c ≠ '/' ∧ isBlank c = false) : Written name where
  bare := by
    rw [text]
    have backBare := Assembly.bare_of_notMem fun slash => (visible _ slash).1 rfl
    exact Text.bare_append plain.1 bare backBare
  stop := by
    intro c last
    rw [text, List.getLast?_append_of_ne_nil _ (List.cons_ne_nil _ _)] at last
    rcases List.mem_cons.mp (List.mem_of_mem_getLast? last) with rfl | behind
    · exact plain.2.1
    · exact (visible c behind).2
  noNumber := by
    rw [text, List.all_append, List.all_cons, plain.2.2, Bool.false_and, Bool.and_false]

/-- The symbols of a command are read as they are written if no comment starts in the name of its
unit or of its function. -/
theorem written_of_mem_symbols (unitBare : ¬ ['/', '/'] <:+: unit.toList)
    (scopeBare : ¬ ['/', '/'] <:+: numbering.scope.toList) (spelled : command.Spelled) :
    ∀ name ∈ command.symbols unit numbering, Written name := by
  refine forall_symbols spelled ?_ ?_ ?_
  · intro index
    refine .marked (toList_staticSymbol unit index) unitBare (by decide) fun c member => ?_
    exact Assembly.visible_of_mem_toDigits (Assembly.toList_repr index ▸ member)
  · intro name own
    have text : (numbering.labelSymbol name).toList =
        numbering.scope.toList ++ '$' :: name.toList := by
      rw [Numbering.labelSymbol, String.toList_append, String.toList_append, List.append_assoc]
      rfl
    refine .marked text scopeBare (by decide) fun c member => ?_
    have char := List.all_eq_true.mp own c member
    refine ⟨?_, (Assembly.of_isSymbolChar char).2⟩
    rintro rfl
    contradiction
  · exact fun name named => .of_isSymbol (isSymbol_of_isName named)

/-- The instructions of a command are read as they are written. -/
theorem reread_eq_of_instructions (made : command.instructions {} unit numbering = .ok block)
    (unitBare : ¬ ['/', '/'] <:+: unit.toList)
    (scopeBare : ¬ ['/', '/'] <:+: numbering.scope.toList) (spelled : command.Spelled)
    {instruction : Instruction} (member : instruction ∈ block)
    (accepted : instruction.reread? = some read) : read = instruction := by
  have written := written_of_mem_symbols unitBare scopeBare spelled
  rcases about_of_instructions made instruction member with plain | ⟨name, own, rfl | rfl⟩
  · exact Option.some.inj (accepted.symm.trans (legal_of_isPlain plain).1.reread?_eq)
  · exact (written name own).read_symbol accepted
  · exact (written name own).read_label accepted

end Names

/-! ## Symbols of programs -/

section Symbols

variable {unit name : String} {index : Nat} {numbering : Numbering} {commands : List Command}
variable {landmark : Landmark} {units : List (String × List Command)}

/-- The symbol of a static variable has a dot in front of its number. -/
theorem toList_staticSymbol_ne {front back : List Char} {mark : Char} (noDot : mark ≠ '.')
    (noDigit : mark.isDigit = false) (digits : ∀ c ∈ back, c.isDigit = true) :
    (staticSymbol unit index).toList ≠ front ++ mark :: back := by
  rw [toList_staticSymbol]
  intro same
  rcases List.append_eq_append_iff.mp same with ⟨gap, -, rest⟩ | ⟨gap, -, rest⟩
  · cases gap with
    | nil => exact noDot (List.cons.inj rest).1.symm
    | cons c gap =>
      have behind : index.repr.toList = gap ++ mark :: back := (List.cons.inj rest).2
      have inside : mark ∈ index.repr.toList := by simp [behind]
      rw [Assembly.isDigit_of_mem_repr inside] at noDigit
      contradiction
  · cases gap with
    | nil => exact noDot (List.cons.inj rest).1
    | cons c gap =>
      have behind : back = gap ++ '.' :: index.repr.toList := (List.cons.inj rest).2
      exact absurd (digits '.' (by simp [behind])) (by decide)

/-- A place of generated commands does not have the symbol of a static variable. -/
theorem Vm.Generated.symbol_ne_static (generated : Generated commands)
    (member : landmark ∈ landmarksFrom numbering commands) :
    landmark.symbol ≠ staticSymbol unit index := by
  have number (number : Nat) (c : Char) (inside : c ∈ number.repr.toList) : c.isDigit = true :=
    Assembly.isDigit_of_mem_repr inside
  have ahead := ahead_of_mem member
  intro same
  have texts := (congrArg String.toList same).symm
  cases landmark with
  | entry own =>
    rw [Landmark.symbol_entry] at same
    exact not_isQualified_staticSymbol (same ▸ generated.qualified own ahead)
  | label scope own =>
    obtain ⟨stem, last, rfl⟩ := generated.numbered own ahead
    refine @toList_staticSymbol_ne unit index (scope ++ "$" ++ stem).toList last.repr.toList '_'
      (by decide) (by decide) (number last) (texts.trans ?_)
    simp [Landmark.symbol, Landmark.parts, Jack.numberedLabel]
  | comparison scope last =>
    refine @toList_staticSymbol_ne unit index (scope ++ "$cmp").toList last.repr.toList '$'
      (by decide) (by decide) (number last) (texts.trans ?_)
    simp [Landmark.symbol, Landmark.parts]
  | call scope last =>
    refine @toList_staticSymbol_ne unit index (scope ++ "$ret").toList last.repr.toList '$'
      (by decide) (by decide) (number last) (texts.trans ?_)
    simp [Landmark.symbol, Landmark.parts]

end Symbols

/-- The symbols that a program leaves to the assembler and that have no address by themselves: those
that are neither names of the platform nor functions of a unit. -/
def looseSymbols (units : List (String × List Command)) : List String :=
  (requested units).filter fun name =>
    name ∉ predefined.map Prod.fst ∧ name ∉ units.flatMap fun unit => entries unit.2

/-- The number of other loose symbols that are used in front of a symbol. -/
def looseBefore (units : List (String × List Command)) (name : String) : Nat :=
  ((looseSymbols units).takeWhile (· ≠ name)).dedup.length

section Programs

variable {units : List (String × List Command)} {unit name : String} {index : Nat}
variable {asked : String → Bool} {program : List Site}

/-- What is asked for among the symbols of blocks is what their commands leave to the assembler. -/
theorem filter_symbolsOf_blocks (made : ∀ site ∈ program, site.instructions = .ok site.block)
    (platform : ∀ name ∈ ({} : Layout).cellNames, asked name = false)
    (places : ∀ landmark ∈ landmarks program, asked landmark.symbol = false)
    (jumps : ∀ site ∈ program, ∀ name ∈ site.command.target?,
      asked (site.numbering.labelSymbol name) = false) :
    (symbolsOf (program.map Site.block).flatten).filter asked =
      (program.filterMap fun site => site.command.requested? site.unit).filter asked := by
  induction program with
  | nil => rfl
  | cons site rest ih =>
    obtain ⟨own, others⟩ := List.forall_mem_cons.mp made
    obtain ⟨ownJumps, otherJumps⟩ := List.forall_mem_cons.mp jumps
    rw [landmarks_cons] at places
    obtain ⟨ownPlaces, otherPlaces⟩ := List.forall_mem_append.mp places
    have first := filter_symbolsOf own platform (by simpa using ownPlaces) ownJumps
    have later := ih others otherPlaces otherJumps
    have both : (site :: rest).filterMap (fun site => site.command.requested? site.unit) =
        (site.command.requested? site.unit).toList ++
          rest.filterMap fun site => site.command.requested? site.unit := by
      rw [List.filterMap_cons]
      cases site.command.requested? site.unit <;> rfl
    rw [List.map_cons, List.flatten_cons, symbolsOf_append, List.filter_append, first, later, both,
      List.filter_append]

variable (generated : ∀ unit ∈ units, Generated unit.2)
variable (made : ∀ site ∈ programSites true units, site.instructions = .ok site.block)

include made in
/-- The labels of a program with a bootstrap are the symbols of its places. -/
theorem mem_labelsOf_programCode : name ∈ labelsOf (programCode {} units) ↔
    ∃ landmark ∈ landmarks (programSites true units), landmark.symbol = name := by
  have labels := @labelsOf_programCode {} units made
  rw [labels, if_pos rfl, List.append_nil, List.mem_map]

include generated made in
/-- No static variable has the symbol of a label. -/
theorem static_notMem_labelsOf : staticSymbol unit index ∉ labelsOf (programCode {} units) := by
  intro member
  obtain ⟨landmark, placed, same⟩ := (mem_labelsOf_programCode made).mp member
  rw [landmarks_programSites] at placed
  rcases List.mem_append.mp placed with own | others
  · obtain rfl := List.mem_singleton.mp own
    have noDot : '.' ∉ bootstrapLandmark.symbol.toList := by decide
    exact noDot (same ▸ dot_staticSymbol unit index)
  · obtain ⟨source, inside, there⟩ := List.mem_flatMap.mp others
    exact (generated source inside).symbol_ne_static there same

include made in
/-- A name without a mark is a label exactly if it is a function of a unit. -/
theorem mem_labelsOf_iff_of_noMark (noMark : '$' ∉ name.toList) :
    name ∈ labelsOf (programCode {} units) ↔
      name ∈ units.flatMap fun unit => entries unit.2 := by
  have labels := @labelsOf_programCode {} units made
  have bootstrap : name ≠ bootstrapLandmark.symbol := fun same => noMark (by rw [same]; decide)
  rw [labels, if_pos rfl, List.append_nil, landmarks_programSites, if_pos rfl, List.map_append,
    List.mem_append, List.map_singleton, List.mem_singleton, or_iff_right bootstrap,
    mem_symbols_iff_of_noMark noMark]

include generated made in
/-- What a program leaves to the assembler is a variable exactly if it is loose. -/
theorem filter_requested :
    (requested units).filter (isVariable (programCode {} units)) = looseSymbols units := by
  have called {name : String} (noMark : '$' ∉ name.toList) :
      isVariable (programCode {} units) name =
        decide (name ∉ predefined.map Prod.fst ∧
          name ∉ units.flatMap fun unit => entries unit.2) := by
    rw [Bool.eq_iff_iff, decide_eq_true_iff, ← mem_labelsOf_iff_of_noMark made noMark]
    simp [isVariable]
  have static {unit : String} {index : Nat} :
      isVariable (programCode {} units) (staticSymbol unit index) =
        decide (staticSymbol unit index ∉ predefined.map Prod.fst ∧
          staticSymbol unit index ∉ units.flatMap fun unit => entries unit.2) := by
    have fresh : staticSymbol unit index ∉ predefined.map Prod.fst := fun member =>
      (bare_of_predefined member).1 (dot_staticSymbol unit index)
    have noLabel := @static_notMem_labelsOf units unit index generated made
    have noEntry : staticSymbol unit index ∉ units.flatMap fun unit => entries unit.2 := by
      intro member
      obtain ⟨source, inside, entered⟩ := List.mem_flatMap.mp member
      exact not_isQualified_staticSymbol ((generated source inside).qualified _ entered)
    rw [decide_eq_true ⟨fresh, noEntry⟩]
    simpa [isVariable, noLabel] using fresh
  apply List.filter_congr
  intro name member
  rcases List.mem_cons.mp member with rfl | member
  · exact called (by decide)
  · obtain ⟨source, inside, there⟩ := List.mem_flatMap.mp member
    obtain ⟨command, own, asks⟩ := List.mem_filterMap.mp there
    have spelled := (generated source inside).spelled command own
    cases command with
    | call callee args =>
      obtain rfl := Option.some.inj asks
      exact called (noMark_of_isName spelled.1)
    | push segment index =>
      cases segment with
      | static =>
        obtain rfl := Option.some.inj asks
        exact static
      | _ => contradiction
    | pop segment index =>
      cases segment with
      | static =>
        obtain rfl := Option.some.inj asks
        exact static
      | _ => contradiction
    | _ => contradiction

include generated made in
/-- The variables of a program are its loose symbols, in the order of their uses. -/
theorem filter_symbolsOf_programCode :
    (symbolsOf (programCode {} units)).filter (isVariable (programCode {} units)) =
      looseSymbols units := by
  have labelled {name : String} (label : name ∈ labelsOf (programCode {} units)) :
      isVariable (programCode {} units) name = false := by
    simp [isVariable, label]
  have platform : ∀ name ∈ ({} : Layout).cellNames,
      isVariable (programCode {} units) name = false := by
    have known : ∀ name ∈ ({} : Layout).cellNames,
        (predefined.map Prod.fst).contains name = true := by
      decide
    intro name member
    rw [isVariable, known name member]
    rfl
  have places : ∀ landmark ∈ landmarks (programSites true units),
      isVariable (programCode {} units) landmark.symbol = false := fun landmark placed =>
    labelled ((mem_labelsOf_programCode made).mpr ⟨landmark, placed, rfl⟩)
  have jumps : ∀ site ∈ programSites true units, ∀ name ∈ site.command.target?,
      isVariable (programCode {} units) (site.numbering.labelSymbol name) = false := by
    intro site place name target
    rcases of_mem_programSites place with rfl | ⟨unit, inside, start, own, subset⟩
    · contradiction
    · obtain ⟨other, there, label, -, scope⟩ :=
        label_of_target (generated unit inside).functional own target
      apply labelled
      apply (mem_labelsOf_programCode made).mpr
      refine ⟨.label site.numbering.scope name, ?_, Landmark.symbol_label site.numbering name⟩
      refine List.mem_filterMap.mpr ⟨other, subset there, ?_⟩
      rw [label, Command.landmark?, scope]
  have blocks := filter_symbolsOf_blocks made platform places jumps
  have front : symbolsOf (prologue {}) = ["SP"] := rfl
  have back : symbolsOf (epilogue {}) = [] := rfl
  have start : ["SP"].filter (isVariable (programCode {} units)) = [] :=
    filter_cells platform (by decide)
  rw [requested_programSites, filter_requested generated made] at blocks
  rw [programCode, symbolsOf_append, symbolsOf_append, front, back, List.append_nil,
    List.filter_append, ← programCode, start, List.nil_append]
  exact blocks

include generated made in
/-- A static variable that is used is a loose symbol. -/
theorem mem_looseSymbols {source : String × List Command} (member : source ∈ units)
    (has : HasStatic source index) : staticSymbol source.1 index ∈ looseSymbols units := by
  obtain ⟨command, inside, uses⟩ := has
  have asks : command.requested? source.1 = some (staticSymbol source.1 index) := by
    rcases uses with rfl | rfl <;> rfl
  have leaves : staticSymbol source.1 index ∈ requested units :=
    List.mem_cons_of_mem _ (List.mem_flatMap.mpr
      ⟨source, member, List.mem_filterMap.mpr ⟨command, inside, asks⟩⟩)
  have fresh : staticSymbol source.1 index ∉ predefined.map Prod.fst := fun platform =>
    (bare_of_predefined platform).1 (dot_staticSymbol source.1 index)
  have noLabel := @static_notMem_labelsOf units source.1 index generated made
  rw [← filter_requested generated made]
  refine List.mem_filter.mpr ⟨leaves, ?_⟩
  simpa [isVariable, noLabel] using fresh

variable {nodes : List (Spanned Instruction)} {assembly : Assembly.Program}

include generated made in
/-- A static variable has the cell with the number of the loose symbols in front of it, behind the
cells of the platform. -/
theorem address?_static (code : instructionsOf nodes = programCode {} units)
    (assembled : Assembly.assembleInstructions nodes = .ok assembly)
    {source : String × List Command} (member : source ∈ units) (has : HasStatic source index) :
    (assembly.symbols.address? (staticSymbol source.1 index)).map UInt16.toNat =
      some (16 + looseBefore units (staticSymbol source.1 index)) := by
  have loose := mem_looseSymbols generated made member has
  rw [← filter_symbolsOf_programCode generated made] at loose
  obtain ⟨used, own⟩ := List.mem_filter.mp loose
  have unlisted : predefined.lookup (staticSymbol source.1 index) = none := by
    rw [List.lookup_eq_none_iff]
    intro row listed
    have platform := bare_of_predefined (List.mem_map_of_mem listed)
    refine bne_iff_ne.mpr fun same => platform.1 ?_
    rw [← same]
    exact dot_staticSymbol source.1 index
  have noLabel := @static_notMem_labelsOf units source.1 index generated made
  have before : variablesBefore (programCode {} units) (staticSymbol source.1 index) =
      looseBefore units (staticSymbol source.1 index) := by
    rw [variablesBefore, symbolsOf_takeWhile, filter_takeWhile own,
      filter_symbolsOf_programCode generated made, looseBefore]
  rw [Assembly.address?_eq_symbolValue? assembled, code, Assembly.symbolValue?, unlisted]
  dsimp only
  rw [if_neg noLabel, if_pos used, before]

/-- No more loose symbols are used in front of one of them than there are others. -/
theorem looseBefore_lt (loose : name ∈ looseSymbols units) :
    looseBefore units name < (looseSymbols units).dedup.length := by
  let front := (looseSymbols units).takeWhile (· ≠ name)
  have absent : name ∉ front.dedup := by
    rw [List.mem_dedup]
    intro inside
    simpa using List.mem_takeWhile_imp inside
  have distinct : (name :: front.dedup).Nodup :=
    List.nodup_cons.mpr ⟨absent, List.nodup_dedup front⟩
  have inside : name :: front.dedup ⊆ (looseSymbols units).dedup := by
    intro other member
    rw [List.mem_dedup]
    rcases List.mem_cons.mp member with rfl | before
    · exact loose
    · exact (List.takeWhile_prefix _).subset (List.mem_dedup.mp before)
  exact (distinct.subperm inside).length_le

include generated made in
/-- Loose symbols are used by at most every other word of a program. -/
theorem looseBefore_le (code : instructionsOf nodes = programCode {} units)
    (assembled : Assembly.assembleInstructions nodes = .ok assembly) (name : String) :
    looseBefore units name ≤ 16384 := by
  have fits := (Assembly.assemblable_of_assembleInstructions assembled).fits
  have room : romSize = 32768 := rfl
  have sparse : Sparse (programCode {} units) := @sparse_programCode {} units made
  have front : looseBefore units name ≤ (looseSymbols units).length :=
    (List.dedup_sublist _).length_le.trans (List.takeWhile_prefix _).length_le
  have all : (looseSymbols units).length ≤ (symbolsOf (programCode {} units)).length := by
    rw [← filter_symbolsOf_programCode generated made]
    exact List.length_filter_le _ _
  unfold Sparse at sparse
  rw [code] at fits
  omega

end Programs

/-! ## Built programs -/

section Building

variable {units : List SourceUnit} {text : String} {program : Assembly.Program}

/-- Instructions that are all read as they are written are read as the same instructions. -/
theorem eq_of_reread {written read : List Instruction}
    (reread : List.Forall₂ (fun written read => written.reread? = some read) written read)
    (kept : ∀ instruction ∈ written, ∀ other, instruction.reread? = some other →
      other = instruction) : read = written := by
  induction reread with
  | nil => rfl
  | @cons instruction other _ _ own _ ih =>
    obtain ⟨first, later⟩ := List.forall_mem_cons.mp kept
    rw [first other own, ih later]

/-- The instructions of a program of generated units are read as they are written if no comment
starts in the name of a unit. -/
theorem reread_eq_of_programCode {units : List (String × List Command)}
    (generated : ∀ unit ∈ units, Generated unit.2)
    (made : ∀ site ∈ programSites true units, site.instructions = .ok site.block)
    (bare : ∀ unit ∈ units, ¬ ['/', '/'] <:+: unit.1.toList) {instruction other : Instruction}
    (member : instruction ∈ programCode {} units) (accepted : instruction.reread? = some other) :
    other = instruction := by
  rcases List.mem_append.mp member with front | back
  · rcases List.mem_append.mp front with start | inside
    · have plain : (prologue {}).all isPlain = true := by decide
      have legal := (legal_of_isPlain (List.all_eq_true.mp plain instruction start)).1
      exact Option.some.inj (accepted.symm.trans legal.reread?_eq)
    · obtain ⟨block, there, own⟩ := List.mem_flatten.mp inside
      obtain ⟨site, place, rfl⟩ := List.mem_map.mp there
      have instructions := made site place
      have noSlash {name : String} (named : isName name.toList = true) :
          ¬ ['/', '/'] <:+: name.toList :=
        (Written.of_isSymbol (isSymbol_of_isName named)).bare
      rcases of_mem_programSites place with rfl | ⟨unit, unitMember, start, placed, -⟩
      · have spelled : bootstrapSite.command.Spelled := by decide
        exact reread_eq_of_instructions instructions (noSlash (by decide)) (noSlash (by decide))
          spelled own accepted
      · obtain ⟨unitName, command, scope⟩ := of_mem_unitSites placed
        have spelled := (generated unit unitMember).spelled
        have unitBare : ¬ ['/', '/'] <:+: site.unit.toList := unitName ▸ bare unit unitMember
        have scopeBare : ¬ ['/', '/'] <:+: site.numbering.scope.toList := by
          rcases scope with same | entered
          · rw [same]
            exact bare unit unitMember
          · obtain ⟨entry, entryMember, name⟩ := List.mem_filterMap.mp entered
            have entrySpelled := spelled entry entryMember
            cases entry with
            | function function locals =>
              rw [← Option.some.inj name]
              exact noSlash entrySpelled.1
            | _ => contradiction
        exact reread_eq_of_instructions instructions unitBare scopeBare
          (spelled _ command) own accepted
  · contradiction

/-- A program that is built and assembled has the instructions of its units, whose commands are
generated. -/
theorem exists_code_of_build (short : ∀ unit ∈ units, unit.source.length < Text.bound32)
    (named : ∀ unit ∈ units, '\n' ∉ unit.name.toList ∧ ¬ ['/', '/'] <:+: unit.name.toList)
    (built : build {} units = .ok text) (assembled : Assembly.assemble text = .ok program) :
    (∀ unit ∈ units.map (SourceUnit.compiled {}), Generated unit.2) ∧
      (∀ site ∈ programSites true (units.map (SourceUnit.compiled {})),
        site.instructions = .ok site.block) ∧
      ∃ nodes, instructionsOf nodes = programCode {} (units.map (SourceUnit.compiled {})) ∧
        Assembly.assembleInstructions nodes = .ok program := by
  obtain ⟨written, lines, rfl⟩ := link_map_eq_ok.mp built
  have each (unit : SourceUnit) (own : List Assembly.Line) (member : unit ∈ units)
      (made : buildUnit {} unit = .ok own) :
      Generated (unit.compiled {}).2 ∧ HasLines {} (unit.compiled {}) own := by
    obtain ⟨code, compiled, linesMade⟩ := bind_eq_ok.mp (SourceUnit.reporting_eq_ok.mp made)
    have generated := Jack.generated_of_compile (short unit member) compiled
    have commands : (unit.compiled {}).2 = code := by
      rw [SourceUnit.compiled, show Jack.compile ({} : Options).runtime unit.source = .ok code from
        compiled]
      rfl
    rw [← commands] at generated
    refine ⟨generated, generated.spelled, _, ?_, linesMade⟩
    rw [List.map_map, commands]
    exact List.map_id code
  have placed := (List.forall₂_and_left units written).mpr ⟨fun unit member => member, lines⟩
  have both := placed.imp fun unit own found => each unit own found.1 found.2
  obtain ⟨eachGenerated, eachLines⟩ := (List.forall₂_and_left units written).mp both
  have generated : ∀ unit ∈ units.map (SourceUnit.compiled {}), Generated unit.2 :=
    List.forall_mem_map.mpr eachGenerated
  have hasLines : List.Forall₂ (HasLines {}) (units.map (SourceUnit.compiled {})) written :=
    List.forall₂_map_left_iff.mpr eachLines
  have whole : ∀ unit ∈ units.map (SourceUnit.compiled {}), '\n' ∉ unit.1.toList :=
    List.forall_mem_map.mpr fun unit member => (named unit member).1
  have bare : ∀ unit ∈ units.map (SourceUnit.compiled {}), ¬ ['/', '/'] <:+: unit.1.toList :=
    List.forall_mem_map.mpr fun unit member => (named unit member).2
  obtain ⟨made, same, readable⟩ := programCode_written rfl hasLines whole
  obtain ⟨nodes, read, own⟩ := bind_eq_ok.mp assembled
  have reread := Assembly.reread_of_readProgram (programLines_ne_nil {} written) readable read
  refine ⟨generated, made, nodes, ?_, own⟩
  rw [same] at reread
  exact eq_of_reread reread fun instruction member other accepted =>
    reread_eq_of_programCode generated made bare member accepted

end Building

end JackToolchain
