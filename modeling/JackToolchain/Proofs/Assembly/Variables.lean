import JackToolchain.Proofs.Assembly.Placement
import JackToolchain.Proofs.Outcome

/-!
# Variables of an assembled program

The symbols of a program that are neither labels nor names of the platform are its variables. They
get the cells from the first free one on, in the order of their first uses. The second pass keeps
one invariant: its table is the one of the first pass with so many variables in front of the next
free cell.
-/
namespace JackToolchain.Assembly

open Machine

/-! ## Symbols of instructions -/

/-- The label that an instruction is, if it is one. -/
def Instruction.labelName? : Instruction → Option String
  | .label name => some name
  | _ => none

/-- The labels of instructions. -/
def labelsOf (code : List Instruction) : List String := code.filterMap Instruction.labelName?

/-- The symbol that an instruction loads, if it loads one. -/
def Instruction.symbolName? : Instruction → Option String
  | .symbol name => some name
  | _ => none

/-- The symbols that instructions load. -/
def symbolsOf (code : List Instruction) : List String := code.filterMap Instruction.symbolName?

/-- The unknown symbols of instructions behind the ones in `found`, each once, in the order of their
first uses. -/
def variablesInto (known : String → Bool) (found : List String) : List Instruction → List String
  | [] => found
  | .symbol name :: rest =>
    variablesInto known (if known name || found.contains name then found else found ++ [name]) rest
  | _ :: rest => variablesInto known found rest

/-- The symbols of a program that are neither labels nor names of the platform. -/
def variablesOf (code : List Instruction) : List String :=
  variablesInto
    (fun name => (predefined.map Prod.fst).contains name || (labelsOf code).contains name) [] code

section Symbols

variable {known : String → Bool} {code : List Instruction} {names : List String}

/-- A symbol is noted unless it is known or noted already. -/
private theorem noted (known : String → Bool) (name : String) (distinct : names.Nodup) :
    let next := if known name || names.contains name then names else names ++ [name]
    next.Nodup ∧ names ⊆ next ∧ (known name = false → name ∈ next) ∧
      next.length ≤ names.length + 1 := by
  dsimp only
  split
  · rename_i old
    refine ⟨distinct, List.Subset.refl names, fun unknown => ?_, Nat.le_succ _⟩
    simpa [unknown] using old
  · rename_i new
    simp only [Bool.or_eq_true, List.contains_iff_mem, not_or] at new
    refine ⟨?_, List.subset_append_left _ _, fun _ => by simp, by simp⟩
    refine List.nodup_append.mpr ⟨distinct, List.pairwise_singleton _ _, ?_⟩
    rintro other inNames last inLast rfl
    exact new.2 (List.mem_singleton.mp inLast ▸ inNames)

/-- The variables are distinct, every unknown symbol is one of them, and there are no more of them
than symbols. -/
theorem of_variablesInto (distinct : names.Nodup) :
    let all := variablesInto known names code
    all.Nodup ∧ names ⊆ all ∧ (∀ name ∈ symbolsOf code, known name = false → name ∈ all) ∧
      all.length ≤ names.length + (symbolsOf code).length := by
  induction code generalizing names with
  | nil =>
    exact ⟨distinct, List.Subset.refl names, fun name member => by contradiction,
      Nat.le_add_right _ _⟩
  | cons instruction rest ih =>
    cases instruction with
    | symbol name =>
      obtain ⟨nextDistinct, larger, noted, few⟩ := noted known name distinct
      obtain ⟨allDistinct, all, others, fewer⟩ := ih nextDistinct
      refine ⟨allDistinct, List.Subset.trans larger all, ?_, ?_⟩
      · exact List.forall_mem_cons.mpr ⟨fun unknown => all (noted unknown), others⟩
      · change _ ≤ names.length + ((symbolsOf rest).length + 1)
        exact fewer.trans (by omega)
    | _ => exact ih distinct

/-- There are no more symbols than words. -/
theorem length_symbolsOf_le (code : List Instruction) : (symbolsOf code).length ≤ size code := by
  induction code with
  | nil => exact Nat.le_refl 0
  | cons instruction rest ih =>
    cases instruction with
    | label name => exact ih
    | symbol name => exact Nat.succ_le_succ ih
    | _ => exact Nat.le_succ_of_le ih

/-- The variables of a program are distinct, every symbol that is neither a label nor a name of the
platform is one of them, and there are no more of them than symbols. -/
theorem of_variablesOf (code : List Instruction) :
    (variablesOf code).Nodup ∧
      (∀ name ∈ symbolsOf code, name ∉ predefined.map Prod.fst → name ∉ labelsOf code →
        name ∈ variablesOf code) ∧
      (variablesOf code).length ≤ (symbolsOf code).length := by
  obtain ⟨distinct, -, all, few⟩ := @of_variablesInto
    (fun name => (predefined.map Prod.fst).contains name || (labelsOf code).contains name) code []
    List.nodup_nil
  refine ⟨distinct, fun name used fresh noLabel => all name used ?_, ?_⟩
  · simpa using And.intro (by simpa using fresh) noLabel
  · rwa [List.length_nil, Nat.zero_add] at few

end Symbols

/-! ## Cells of variables -/

section Cells

variable {base table : SymbolTable} {names : List String}
variable {nodes : List (Spanned Instruction)} {words : Array Word} {program : Program}
variable {count total : Nat}

/-- A table is another one with variables from its next free cell on. -/
structure SymbolTable.Allots (base : SymbolTable) (names : List String) (table : SymbolTable) :
    Prop where
  /-- The next free cell is behind the variables. -/
  next : table.nextVariable = base.nextVariable + UInt16.ofNat names.length
  /-- The variables follow each other. -/
  placed : ∀ k name, names[k]? = some name →
    table.address? name = some (base.nextVariable + UInt16.ofNat k)
  /-- Other symbols are as they were. -/
  kept : ∀ name, name ∉ names → table.address? name = base.address? name

/-- A table is itself without variables. -/
theorem SymbolTable.Allots.refl (base : SymbolTable) : base.Allots [] base where
  next := by
    rw [List.length_nil]
    exact (UInt16.add_zero _).symm
  placed := fun k name there => by simp at there
  kept := fun name _ => rfl

/-- Allocating a symbol makes it a variable, unless it is one or is known. -/
theorem SymbolTable.Allots.allocate (allots : base.Allots names table) (name : String) :
    base.Allots
      (if (base.address? name).isSome || names.contains name then names else names ++ [name])
      (table.allocate name).2 := by
  unfold SymbolTable.allocate
  cases address : table.address? name with
  | some cell =>
    have old : ((base.address? name).isSome || names.contains name) = true := by
      rw [Bool.or_eq_true, List.contains_iff_mem, or_iff_not_imp_right]
      intro unlisted
      rw [← allots.kept name unlisted, address]
      rfl
    rw [if_pos old]
    exact allots
  | none =>
    have unlisted : name ∉ names := by
      intro member
      obtain ⟨k, there⟩ := List.mem_iff_getElem?.mp member
      rw [allots.placed k name there] at address
      contradiction
    have new : ¬ ((base.address? name).isSome || names.contains name) = true := by
      rw [Bool.or_eq_true, List.contains_iff_mem, ← allots.kept name unlisted, address]
      simpa using unlisted
    rw [if_neg new]
    refine ⟨?_, fun k other there => ?_, fun other outside => ?_⟩
    · rw [List.length_append, List.length_singleton, UInt16.ofNat_add, ← UInt16.add_assoc,
        ← allots.next]
      rfl
    · change (table.insert name table.nextVariable).address? other = _
      rcases Nat.lt_or_ge k names.length with before | behind
      · rw [List.getElem?_append_left before] at there
        have known := allots.placed k other there
        exact SymbolTable.insert_extends address other _ known
      · obtain ⟨inside, same⟩ := List.getElem?_eq_some_iff.mp there
        rw [List.length_append, List.length_singleton] at inside
        obtain rfl : k = names.length := by omega
        rw [List.getElem_concat_length rfl] at same
        rw [← same, SymbolTable.address?_insert_self, allots.next]
    · rw [List.mem_append, List.mem_singleton, not_or] at outside
      rw [← allots.kept other outside.1]
      change (table.insert name table.nextVariable).address? other = _
      have differ : ¬ (name == other) = true := by
        rw [beq_iff_eq]
        exact fun same => outside.2 same.symm
      rw [SymbolTable.address?, SymbolTable.insert, Std.HashMap.getElem?_insert, if_neg differ]
      rfl

/-- The second pass allots the variables of the instructions. -/
theorem allots_of_encodeAll (allots : base.Allots names table)
    (encoded : encodeAll table words nodes = .ok program) :
    base.Allots (variablesInto (fun name => (base.address? name).isSome) names
      (instructionsOf nodes)) program.symbols := by
  induction nodes generalizing names table words with
  | nil =>
    obtain rfl := Except.ok.inj encoded
    exact allots
  | cons node rest ih =>
    obtain ⟨instruction, span⟩ := node
    cases instruction with
    | label name => exact ih allots encoded
    | address value => exact ih allots encoded
    | symbol name => exact ih (allots.allocate name) encoded
    | compute dest comp jump =>
      rw [encodeAll] at encoded
      split at encoded
      · exact ih allots encoded
      · contradiction

/-- The first pass adds the labels and nothing else. -/
theorem isSome_bindLabels {final : SymbolTable}
    (bound : bindLabels table count nodes = .ok (final, total)) :
    final.nextVariable = table.nextVariable ∧ ∀ name, (final.address? name).isSome =
      ((table.address? name).isSome || (labelsOf (instructionsOf nodes)).contains name) := by
  induction nodes generalizing table count with
  | nil =>
    obtain ⟨rfl, rfl⟩ := Prod.mk.inj (Except.ok.inj bound)
    exact ⟨rfl, fun name => (Bool.or_false _).symm⟩
  | cons node rest ih =>
    obtain ⟨instruction, span⟩ := node
    cases instruction with
    | label name =>
      rw [bindLabels] at bound
      split at bound
      · contradiction
      · obtain ⟨next, known⟩ := ih bound
        refine ⟨next, fun other => ?_⟩
        change _ = (_ || (name :: labelsOf (instructionsOf rest)).contains other)
        rw [known other, SymbolTable.address?, SymbolTable.insert, Std.HashMap.getElem?_insert,
          List.contains_cons]
        by_cases same : name = other
        · simp [same]
        · have differ : (other == name) = false := beq_eq_false_iff_ne.mpr (Ne.symm same)
          simp [same, differ, SymbolTable.address?]
    | address value => exact ih bound
    | symbol name => exact ih bound
    | compute dest comp jump => exact ih bound

/-- An assembled program has the labels of the first pass, and its variables in the cells from the
first free one on. -/
theorem allots_of_assembleInstructions (assembled : assembleInstructions nodes = .ok program) :
    ∃ base total, bindLabels .initial 0 nodes = .ok (base, total) ∧
      base.nextVariable = firstVariable ∧
      base.Allots (variablesOf (instructionsOf nodes)) program.symbols ∧
      program.symbols.Extends base := by
  obtain ⟨base, total, bound, -, encoded⟩ := assembleInstructions_eq_ok.mp assembled
  obtain ⟨next, known⟩ := isSome_bindLabels bound
  have allots := allots_of_encodeAll (.refl base) encoded
  have fresh : (fun name => (base.address? name).isSome) = fun name =>
      (predefined.map Prod.fst).contains name ||
        (labelsOf (instructionsOf nodes)).contains name := by
    funext name
    rw [known, ← SymbolTable.contains_initial]
    simp [SymbolTable.address?, SymbolTable.contains]
  rw [fresh, ← variablesOf] at allots
  exact ⟨base, total, bound, next, allots, (encodeAll_extends encoded).1⟩

/-- Every label of an assembled program has the address of the next word. -/
theorem labelsAt_of_assembleInstructions (assembled : assembleInstructions nodes = .ok program) :
    LabelsAt program.symbols.address? 0 (instructionsOf nodes) := by
  obtain ⟨base, total, bound, -, -, larger⟩ := allots_of_assembleInstructions assembled
  exact (bindLabels_placed bound).2.2.extends larger

/-- Every variable of an assembled program has its cell. -/
theorem address?_variable (assembled : assembleInstructions nodes = .ok program) {k : Nat}
    {name : String} (there : (variablesOf (instructionsOf nodes))[k]? = some name) :
    program.symbols.address? name = some (firstVariable + UInt16.ofNat k) := by
  obtain ⟨base, total, -, next, allots, -⟩ := allots_of_assembleInstructions assembled
  rw [allots.placed k name there, next]

end Cells

end JackToolchain.Assembly
