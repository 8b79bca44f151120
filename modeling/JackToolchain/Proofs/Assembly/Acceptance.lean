import JackToolchain.Proofs.Assembly.Variables

/-!
# Accepted programs

A program is assembled if its labels are new and distinct, its computations can be encoded and it
fits into the program memory. A program that also leaves room for its variables has only addresses
that an instruction can load: the labels count words, and the variables follow each other.
-/
namespace JackToolchain.Assembly

open Machine

/-- Whether an instruction has a word. -/
def Instruction.isEncodable : Instruction → Bool
  | .compute dest comp jump => (encodeCompute? dest comp jump).isSome
  | _ => true

namespace SymbolTable

variable {table : SymbolTable} {name other : String} {address : Word}

/-- An inserted symbol is contained. -/
theorem contains_insert :
    (table.insert name address).contains other = (name == other || table.contains other) := by
  rw [contains, insert, Std.HashMap.contains_insert]
  rfl

/-- An inserted small address leaves a table small. -/
theorem Small.insert (small : table.Small) (fits : address.toNat ≤ 32767) :
    (table.insert name address).Small := by
  intro symbol word known
  rw [address?, SymbolTable.insert, Std.HashMap.getElem?_insert] at known
  split at known
  · obtain rfl := Option.some.inj known
    exact fits
  · exact small symbol word known

/-- Variables in small cells leave a table small. -/
theorem Small.allots {base : SymbolTable} {names : List String} (small : base.Small)
    (allots : base.Allots names table) (room : base.nextVariable.toNat + names.length ≤ 32768) :
    table.Small := by
  intro name address known
  by_cases isVariable : name ∈ names
  · obtain ⟨k, there⟩ := List.mem_iff_getElem?.mp isVariable
    obtain ⟨inside, -⟩ := List.getElem?_eq_some_iff.mp there
    rw [allots.placed k name there] at known
    obtain rfl := Option.some.inj known
    rw [UInt16.toNat_add, UInt16.toNat_ofNat']
    omega
  · rw [allots.kept name isVariable] at known
    exact small name address known

/-- The names of the platform have addresses that an instruction can load. -/
theorem small_initial : initial.Small := by
  intro name address known
  by_cases named : (predefined.map Prod.fst).contains name = true
  · obtain ⟨row, member, rfl⟩ := List.mem_map.mp (List.contains_iff_mem.mp named)
    rw [address?_initial member] at known
    obtain rfl := Option.some.inj known
    have all : ∀ row ∈ predefined, row.2.toNat ≤ 32767 := by decide
    exact all row member
  · rw [address?_eq_none (contains_initial.trans (by simpa using named))] at known
    contradiction

end SymbolTable

section Passes

variable {table : SymbolTable} {count : Nat} {nodes : List (Spanned Instruction)}
variable {words : Array Word}

/-- The first pass accepts labels that are new and distinct. -/
theorem bindLabels_accepts (distinct : (labelsOf (instructionsOf nodes)).Nodup)
    (fresh : ∀ name ∈ labelsOf (instructionsOf nodes), table.contains name = false) :
    ∃ final total, bindLabels table count nodes = .ok (final, total) := by
  induction nodes generalizing table count with
  | nil => exact ⟨table, count, rfl⟩
  | cons node rest ih =>
    obtain ⟨instruction, span⟩ := node
    cases instruction with
    | label name =>
      have others := List.nodup_cons.mp distinct
      rw [bindLabels, fresh name List.mem_cons_self, if_neg Bool.false_ne_true]
      refine ih others.2 fun other member => ?_
      rw [SymbolTable.contains_insert, fresh other (List.mem_cons_of_mem _ member), Bool.or_false,
        beq_eq_false_iff_ne]
      rintro rfl
      exact others.1 member
    | address value => exact ih distinct fresh
    | symbol name => exact ih distinct fresh
    | compute dest comp jump => exact ih distinct fresh

/-- The first pass gives small addresses to the labels of a short program. -/
theorem small_of_bindLabels {final : SymbolTable} {total : Nat}
    (bound : bindLabels table count nodes = .ok (final, total)) (small : table.Small)
    (fits : count + size (instructionsOf nodes) ≤ 32767) : final.Small := by
  induction nodes generalizing table count with
  | nil =>
    obtain ⟨rfl, rfl⟩ := Prod.mk.inj (Except.ok.inj bound)
    exact small
  | cons node rest ih =>
    obtain ⟨instruction, span⟩ := node
    have word (fits : count + (size (instructionsOf rest) + 1) ≤ 32767) :
        count + 1 + size (instructionsOf rest) ≤ 32767 := by omega
    cases instruction with
    | label name =>
      rw [bindLabels] at bound
      split at bound
      · contradiction
      · refine ih bound (small.insert ?_) fits
        change count + size (instructionsOf rest) ≤ 32767 at fits
        rw [UInt16.toNat_ofNat']
        omega
    | address value => exact ih bound small (word fits)
    | symbol name => exact ih bound small (word fits)
    | compute dest comp jump => exact ih bound small (word fits)

/-- The second pass accepts instructions that have words. -/
theorem encodeAll_accepts
    (encodable : (instructionsOf nodes).all Instruction.isEncodable = true) :
    ∃ program, encodeAll table words nodes = .ok program := by
  induction nodes generalizing table words with
  | nil => exact ⟨⟨words, table⟩, rfl⟩
  | cons node rest ih =>
    obtain ⟨instruction, span⟩ := node
    have both : instruction.isEncodable = true ∧
        (instructionsOf rest).all Instruction.isEncodable = true := by
      simpa [instructionsOf] using encodable
    obtain ⟨own, others⟩ := both
    cases instruction with
    | compute dest comp jump =>
      obtain ⟨word, encoded⟩ := Option.isSome_iff_exists.mp own
      rw [encodeAll, encoded]
      exact ih others
    | label name => exact ih others
    | address value => exact ih others
    | symbol name => exact ih others

/-- A program with distinct new labels and encodable computations that fits into the program memory
is assembled. -/
theorem assembleInstructions_accepts (distinct : (labelsOf (instructionsOf nodes)).Nodup)
    (fresh : ∀ name ∈ labelsOf (instructionsOf nodes), name ∉ predefined.map Prod.fst)
    (encodable : (instructionsOf nodes).all Instruction.isEncodable = true)
    (fits : size (instructionsOf nodes) ≤ romSize) :
    ∃ program, assembleInstructions nodes = .ok program := by
  have unknown (name : String) (member : name ∈ labelsOf (instructionsOf nodes)) :
      SymbolTable.initial.contains name = false := by
    rw [SymbolTable.contains_initial]
    simpa using fresh name member
  obtain ⟨table, total, bound⟩ := @bindLabels_accepts .initial 0 nodes distinct unknown
  obtain ⟨program, encoded⟩ := @encodeAll_accepts table nodes #[] encodable
  obtain ⟨counted, -⟩ := bindLabels_placed bound
  exact ⟨program, assembleInstructions_eq_ok.mpr ⟨table, total, bound, by omega, encoded⟩⟩

/-- A program with distinct new labels and encodable computations that leaves room for its variables
is assembled, and all its symbols have addresses that an instruction can load. -/
theorem assembleInstructions_isOk (distinct : (labelsOf (instructionsOf nodes)).Nodup)
    (fresh : ∀ name ∈ labelsOf (instructionsOf nodes), name ∉ predefined.map Prod.fst)
    (encodable : (instructionsOf nodes).all Instruction.isEncodable = true)
    (short : size (instructionsOf nodes) ≤ 32752) :
    ∃ program, assembleInstructions nodes = .ok program ∧ program.symbols.Small := by
  have room : romSize = 32768 := rfl
  obtain ⟨program, assembled⟩ := assembleInstructions_accepts distinct fresh encodable (by omega)
  obtain ⟨base, total, bound, next, allots, -⟩ := allots_of_assembleInstructions assembled
  have few := (of_variablesOf (instructionsOf nodes)).2.2
  have symbols := length_symbolsOf_le (instructionsOf nodes)
  have small := small_of_bindLabels bound SymbolTable.small_initial (by omega)
  refine ⟨program, assembled, small.allots allots ?_⟩
  rw [next]
  change 16 + _ ≤ 32768
  omega

/-- A text of such a program is assembled. -/
theorem assemble_isOk {text : String} {code : List Instruction}
    (read : readProgram text = .ok nodes) (instructions : instructionsOf nodes = code)
    (distinct : (labelsOf code).Nodup)
    (fresh : ∀ name ∈ labelsOf code, name ∉ predefined.map Prod.fst)
    (encodable : code.all Instruction.isEncodable = true) (short : size code ≤ 32752) :
    ∃ program, assemble text = .ok program ∧ program.symbols.Small ∧
      assembleInstructions nodes = .ok program := by
  subst instructions
  obtain ⟨program, assembled, small⟩ := assembleInstructions_isOk distinct fresh encodable short
  exact ⟨program, bind_eq_ok.mpr ⟨nodes, read, assembled⟩, small, assembled⟩

end Passes

end JackToolchain.Assembly
