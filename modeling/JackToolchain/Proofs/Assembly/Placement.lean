import JackToolchain.Assembly.Program
import JackToolchain.Proofs.Machine.Execution
import JackToolchain.Proofs.Outcome
import Std.Data.HashMap.Lemmas

/-!
# Placement by the assembler

An accepted program is loaded as its instructions say: the words follow each other, a label has the
number of words before it, and every symbol has one address throughout. The first pass keeps what
a table knows because a label must be new; the second keeps it because only unknown symbols get a
cell. So what the second pass looks up is what the final table says.
-/
namespace JackToolchain.Assembly

open Machine

/-! ## Tables -/

namespace SymbolTable

variable {table : SymbolTable} {name other : String} {address word : Word}

/-- One table knows everything that another knows. -/
def Extends (later earlier : SymbolTable) : Prop :=
  ∀ name address, earlier.address? name = some address → later.address? name = some address

/-- A table extends itself. -/
theorem Extends.refl (table : SymbolTable) : table.Extends table := fun _ _ known => known

/-- Extension is transitive. -/
theorem Extends.trans {first second third : SymbolTable} (last : third.Extends second)
    (next : second.Extends first) : third.Extends first :=
  fun name address known => last name address (next name address known)

/-- A table has an address for a symbol exactly if it contains the symbol. -/
theorem address?_eq_none (absent : table.contains name = false) : table.address? name = none := by
  rw [address?, Std.HashMap.getElem?_eq_none]
  simpa [contains, Std.HashMap.contains_iff_mem] using absent

/-- An inserted symbol has its address. -/
theorem address?_insert_self : (table.insert name address).address? name = some address := by
  simp [address?, insert]

/-- Inserting a symbol that the table does not know extends the table. -/
theorem insert_extends (unknown : table.address? name = none) :
    (table.insert name address).Extends table := by
  intro symbol word known
  have differ : name ≠ symbol := by
    rintro rfl
    rw [unknown] at known
    contradiction
  simpa [address?, insert, Std.HashMap.getElem?_insert, differ] using known

/-- A symbol has the address that it is allocated. -/
theorem address?_allocate :
    (table.allocate name).2.address? name = some (table.allocate name).1 := by
  unfold allocate
  cases known : table.address? name with
  | some address => exact known
  | none => simp [address?]

/-- Allocating extends the table. -/
theorem allocate_extends : (table.allocate name).2.Extends table := by
  unfold allocate
  cases known : table.address? name with
  | some address => exact .refl table
  | none => exact insert_extends known

/-- The names of the platform have their addresses at the start. -/
theorem address?_initial {row : String × Word} (member : row ∈ predefined) :
    initial.address? row.1 = some row.2 := by
  have distinct : predefined.Pairwise fun left right => (left.1 == right.1) = false := by
    decide
  exact Std.HashMap.getElem?_ofList_of_mem (beq_self_eq_true row.1) distinct member

/-- No other name is known at the start. -/
theorem contains_initial : initial.contains name = (predefined.map Prod.fst).contains name := by
  simp [contains, initial, Std.HashMap.contains_ofList]

end SymbolTable

/-! ## The two passes -/

/-- The instructions without their places in a text. -/
def instructionsOf (nodes : List (Spanned Instruction)) : List Instruction :=
  nodes.map fun node => node.node

/-- Every label has the address of the next word, where the first word has the address `start`. -/
def LabelsAt (address? : String → Option Word) : Word → List Instruction → Prop
  | _, [] => True
  | start, .label name :: rest => address? name = some start ∧ LabelsAt address? start rest
  | start, _ :: rest => LabelsAt address? (start + 1) rest

section Passes

variable {table final : SymbolTable} {count total : Nat} {nodes : List (Spanned Instruction)}
variable {words : Array Word} {program : Program}

/-- Labels keep their addresses in a table that knows more. -/
theorem LabelsAt.extends {earlier later : SymbolTable} (larger : later.Extends earlier)
    {start : Word} {code : List Instruction} (placed : LabelsAt earlier.address? start code) :
    LabelsAt later.address? start code := by
  induction code generalizing start with
  | nil => trivial
  | cons instruction rest ih =>
    cases instruction with
    | label name => exact ⟨larger _ _ placed.1, ih placed.2⟩
    | _ => exact ih placed

/-- The first pass counts the words, extends the table and gives every label its address. -/
theorem bindLabels_placed (bound : bindLabels table count nodes = .ok (final, total)) :
    total = count + size (instructionsOf nodes) ∧ final.Extends table ∧
      LabelsAt final.address? (UInt16.ofNat count) (instructionsOf nodes) := by
  induction nodes generalizing table count with
  | nil =>
    obtain ⟨rfl, rfl⟩ := Prod.mk.inj (Except.ok.inj bound)
    exact ⟨rfl, .refl _, trivial⟩
  | cons node rest ih =>
    obtain ⟨instruction, span⟩ := node
    have word (plain : bindLabels table (count + 1) rest = .ok (final, total)) :
        total = count + (size (instructionsOf rest) + 1) ∧ final.Extends table ∧
          LabelsAt final.address? (UInt16.ofNat count + 1) (instructionsOf rest) := by
      obtain ⟨counted, larger, placed⟩ := ih plain
      rw [UInt16.ofNat_add] at placed
      exact ⟨by omega, larger, placed⟩
    cases instruction with
    | label name =>
      rw [bindLabels] at bound
      split at bound
      · contradiction
      · rename_i unknown
        obtain ⟨counted, larger, placed⟩ := ih bound
        have absent := SymbolTable.address?_eq_none (by simpa using unknown)
        exact ⟨counted, larger.trans (SymbolTable.insert_extends absent),
          larger _ _ SymbolTable.address?_insert_self, placed⟩
    | address value => exact word bound
    | symbol name => exact word bound
    | compute dest comp jump => exact word bound

/-- The second pass extends the table and keeps the words that are there. -/
theorem encodeAll_extends (encoded : encodeAll table words nodes = .ok program) :
    program.symbols.Extends table ∧ words.toList <+: program.words.toList := by
  induction nodes generalizing table words with
  | nil =>
    obtain rfl := Except.ok.inj encoded
    exact ⟨.refl _, List.prefix_refl _⟩
  | cons node rest ih =>
    obtain ⟨instruction, span⟩ := node
    have pushed {table : SymbolTable} {word : Word}
        (encoded : encodeAll table (words.push word) rest = .ok program) :
        program.symbols.Extends table ∧ words.toList <+: program.words.toList := by
      obtain ⟨larger, front⟩ := ih encoded
      rw [Array.toList_push] at front
      exact ⟨larger, (List.prefix_append _ _).trans front⟩
    cases instruction with
    | label name => exact ih encoded
    | address value => exact pushed encoded
    | symbol name =>
      obtain ⟨larger, front⟩ := pushed encoded
      exact ⟨larger.trans SymbolTable.allocate_extends, front⟩
    | compute dest comp jump =>
      rw [encodeAll] at encoded
      split at encoded
      · exact pushed encoded
      · contradiction

/-- The address of a symbol of an assembled program. -/
def Program.address (program : Program) (name : String) : Word :=
  (program.symbols.address? name).getD 0

/-- All symbols have addresses that an instruction can load. -/
def SymbolTable.Small (table : SymbolTable) : Prop :=
  ∀ name address, table.address? name = some address → address.toNat ≤ 32767

/-- Instructions are assembled exactly if both passes succeed and there is room for the words. -/
theorem assembleInstructions_eq_ok : assembleInstructions nodes = .ok program ↔
    ∃ base total, bindLabels .initial 0 nodes = .ok (base, total) ∧ total ≤ romSize ∧
      encodeAll base #[] nodes = .ok program := by
  rw [assembleInstructions, bind_eq_ok]
  constructor
  · rintro ⟨⟨base, total⟩, bound, rest⟩
    dsimp only at rest
    split at rest
    · contradiction
    · exact ⟨base, total, bound, by omega, rest⟩
  · rintro ⟨base, total, bound, room, encoded⟩
    exact ⟨(base, total), bound, (if_neg (Nat.not_lt.mpr room)).trans encoded⟩

end Passes

end JackToolchain.Assembly
