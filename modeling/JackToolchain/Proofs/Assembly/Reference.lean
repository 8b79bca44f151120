import JackToolchain.Proofs.Assembly.Acceptance
import Mathlib.Data.List.Dedup
import Mathlib.Data.List.Nodup

/-!
# What assembling computes

The two passes share one table that changes at every label and at every new symbol. Seen from the
outside there is no table: the address of a symbol is a function of the instructions. It is the
address of the platform if the name is one of the platform, else the number of words in front of
the label, wherever the label stands, else 16 and the number of other variables that are used
before. The passes are related to this function by what stands in front of a first occurrence.
-/
namespace JackToolchain.Assembly

open Machine

/-! ## The reference -/

/-- Instructions that can be assembled. -/
structure Assemblable (code : List Instruction) : Prop where
  /-- No label is defined twice. -/
  distinct : (labelsOf code).Nodup
  /-- No label has a name of the platform. -/
  fresh : ∀ name ∈ labelsOf code, name ∉ predefined.map Prod.fst
  /-- The instructions other than labels fit into the program memory. -/
  fits : size code ≤ romSize
  /-- All fields of computations can be encoded. -/
  encodable : ∀ dest comp jump, .compute dest comp jump ∈ code →
    (encodeComp? comp).isSome ∧ (encodeDest? dest).isSome ∧ (encodeJump? jump).isSome

/-- Whether a symbol is neither a name of the platform nor a label. -/
def isVariable (code : List Instruction) (name : String) : Bool :=
  !((predefined.map Prod.fst).contains name || (labelsOf code).contains name)

/-- The number of distinct variables that are used in front of the first use of a symbol. -/
def variablesBefore (code : List Instruction) (name : String) : Nat :=
  ((symbolsOf (code.takeWhile (· ≠ .symbol name))).filter (isVariable code)).dedup.length

/-- The address that the instructions give to a symbol, if they give it one. -/
def symbolValue? (code : List Instruction) (name : String) : Option Nat :=
  match predefined.lookup name with
  | some address => some address.toNat
  | none =>
    if name ∈ labelsOf code then some (size (code.takeWhile (· ≠ .label name)))
    else if name ∈ symbolsOf code then some (16 + variablesBefore code name)
    else none

/-- The instructions that have words: all but the labels. -/
def worded (code : List Instruction) : List Instruction :=
  code.filter fun instruction => instruction.labelName?.isNone

/-- The word that an instruction has among others, as a number. -/
def wordValue? (code : List Instruction) : Instruction → Option Nat
  | .address value => some value
  | .symbol name => symbolValue? code name
  | .compute dest comp jump => (encodeCompute? dest comp jump).map UInt16.toNat
  | .label _ => none

/-- A program is what the instructions say. -/
structure Describes (code : List Instruction) (program : Program) : Prop where
  /-- The words are those of the instructions in order, one for each that is no label. -/
  words : program.words.toList.map (fun word => some word.toNat) =
    (worded code).map (wordValue? code)
  /-- The symbols are the names of the platform, the labels and the variables. -/
  symbols : ∀ name, (program.symbols.address? name).map UInt16.toNat = symbolValue? code name

/-! ## Acceptance -/

section Acceptance

variable {table final : SymbolTable} {count total : Nat} {nodes : List (Spanned Instruction)}
variable {words : Array Word} {program : Program}

/-- The first pass accepts only labels that are new and distinct. -/
theorem of_bindLabels (bound : bindLabels table count nodes = .ok (final, total)) :
    (labelsOf (instructionsOf nodes)).Nodup ∧
      ∀ name ∈ labelsOf (instructionsOf nodes), table.contains name = false := by
  induction nodes generalizing table count with
  | nil => exact ⟨List.nodup_nil, fun name member => by contradiction⟩
  | cons node rest ih =>
    obtain ⟨instruction, span⟩ := node
    cases instruction with
    | label name =>
      rw [bindLabels] at bound
      split at bound
      · contradiction
      · rename_i unknown
        have new : table.contains name = false := by simpa using unknown
        obtain ⟨distinct, fresh⟩ := ih bound
        have later (other : String) (member : other ∈ labelsOf (instructionsOf rest)) :
            name ≠ other ∧ table.contains other = false := by
          have absent := fresh other member
          rw [SymbolTable.contains_insert, Bool.or_eq_false_iff, beq_eq_false_iff_ne] at absent
          exact absent
        have once : name ∉ labelsOf (instructionsOf rest) := fun member => (later name member).1 rfl
        have all : ∀ other ∈ name :: labelsOf (instructionsOf rest),
            table.contains other = false :=
          List.forall_mem_cons.mpr ⟨new, fun other member => (later other member).2⟩
        exact ⟨List.nodup_cons.mpr ⟨once, distinct⟩, all⟩
    | address value => exact ih bound
    | symbol name => exact ih bound
    | compute dest comp jump => exact ih bound

/-- The second pass accepts only instructions that have words. -/
theorem isEncodable_of_encodeAll (encoded : encodeAll table words nodes = .ok program) :
    (instructionsOf nodes).all Instruction.isEncodable = true := by
  induction nodes generalizing table words with
  | nil => rfl
  | cons node rest ih =>
    obtain ⟨instruction, span⟩ := node
    change (instruction.isEncodable && (instructionsOf rest).all Instruction.isEncodable) = true
    cases instruction with
    | compute dest comp jump =>
      rw [encodeAll] at encoded
      split at encoded
      · rename_i word found
        rw [ih encoded, Instruction.isEncodable, found]
        rfl
      · contradiction
    | label name => exact ih encoded
    | address value => exact ih encoded
    | symbol name => exact ih encoded

/-- A computation can be encoded exactly if its three fields can. -/
theorem isSome_encodeCompute? (dest comp jump : String) :
    (encodeCompute? dest comp jump).isSome ↔
      (encodeComp? comp).isSome ∧ (encodeDest? dest).isSome ∧ (encodeJump? jump).isSome := by
  unfold encodeCompute?
  cases encodeComp? comp <;> cases encodeDest? dest <;> cases encodeJump? jump <;> simp

/-- All instructions have words exactly if all fields of computations can be encoded. -/
theorem all_isEncodable {code : List Instruction} :
    code.all Instruction.isEncodable = true ↔ ∀ dest comp jump, .compute dest comp jump ∈ code →
      (encodeComp? comp).isSome ∧ (encodeDest? dest).isSome ∧ (encodeJump? jump).isSome := by
  rw [List.all_eq_true]
  constructor
  · intro all dest comp jump member
    exact (isSome_encodeCompute? dest comp jump).mp (all _ member)
  · intro fields instruction member
    cases instruction with
    | compute dest comp jump =>
      exact (isSome_encodeCompute? dest comp jump).mpr (fields dest comp jump member)
    | _ => rfl

/-- Instructions that are assembled can be assembled. -/
theorem assemblable_of_assembleInstructions
    (assembled : assembleInstructions nodes = .ok program) :
    Assemblable (instructionsOf nodes) := by
  obtain ⟨base, total, bound, room, encoded⟩ := assembleInstructions_eq_ok.mp assembled
  obtain ⟨distinct, unknown⟩ := of_bindLabels bound
  have counted := (bindLabels_placed bound).1
  refine ⟨distinct, fun name member => ?_, by omega,
    all_isEncodable.mp (isEncodable_of_encodeAll encoded)⟩
  have absent := unknown name member
  rw [SymbolTable.contains_initial] at absent
  simpa using absent

end Acceptance

/-! ## Addresses of symbols -/

section Values

variable {address? : String → Option Word} {start : Word} {code : List Instruction}
variable {known : String → Bool} {found : List String} {name : String}
variable {nodes : List (Spanned Instruction)} {program : Program}

/-- A label has the number of words in front of it. -/
theorem LabelsAt.address?_eq (placed : LabelsAt address? start code)
    (defined : name ∈ labelsOf code) :
    address? name = some (start + UInt16.ofNat (size (code.takeWhile (· ≠ .label name)))) := by
  induction code generalizing start with
  | nil => contradiction
  | cons instruction rest ih =>
    have word (plain : instruction ≠ .label name)
        (isWord : ∀ front, size (instruction :: front) = size front + 1)
        (placed : LabelsAt address? (start + 1) rest) (defined : name ∈ labelsOf rest) :
        address? name =
          some (start + UInt16.ofNat (size ((instruction :: rest).takeWhile
            (· ≠ .label name)))) := by
      rw [List.takeWhile_cons_of_pos (by simpa using plain), isWord, ih placed defined,
        UInt16.ofNat_add, UInt16.add_comm (UInt16.ofNat _), ← UInt16.add_assoc]
      rfl
    cases instruction with
    | label other =>
      by_cases same : other = name
      · subst same
        rw [List.takeWhile_cons_of_neg (by simp), placed.1]
        exact congrArg some (UInt16.add_zero start).symm
      · have later : name ∈ labelsOf rest :=
          (List.mem_cons.mp defined).resolve_left fun own => same own.symm
        rw [List.takeWhile_cons_of_pos (by simpa using same)]
        exact ih placed.2 later
    | address value => exact word (by simp) (fun _ => rfl) placed defined
    | symbol other => exact word (by simp) (fun _ => rfl) placed defined
    | compute dest comp jump => exact word (by simp) (fun _ => rfl) placed defined

/-- The instructions in front of a place have no more words than all. -/
theorem size_takeWhile_le (code : List Instruction) (test : Instruction → Bool) :
    size (code.takeWhile test) ≤ size code := by
  have whole : size (code.takeWhile test ++ code.dropWhile test) = size code :=
    congrArg size List.takeWhile_append_dropWhile
  rw [size_append] at whole
  omega

/-- Variables stay in front of those that follow. -/
theorem prefix_variablesInto : found <+: variablesInto known found code := by
  induction code generalizing found with
  | nil => exact List.prefix_refl found
  | cons instruction rest ih =>
    cases instruction with
    | symbol other =>
      rw [variablesInto]
      split
      · exact ih
      · exact (List.prefix_append found [other]).trans ih
    | _ => exact ih

/-- The variables are the unknown symbols. -/
theorem mem_variablesInto : name ∈ variablesInto known found code ↔
    name ∈ found ∨ (name ∈ symbolsOf code ∧ known name = false) := by
  induction code generalizing found with
  | nil => simp [variablesInto, symbolsOf]
  | cons instruction rest ih =>
    cases instruction with
    | symbol other =>
      change _ ↔ _ ∨ (name ∈ other :: symbolsOf rest ∧ _)
      rw [variablesInto, ih, List.mem_cons]
      by_cases same : name = other
      · subst same
        by_cases old : known name = true
        · simp [old]
        · by_cases listed : name ∈ found <;> simp [old, listed]
      · split
        · simp [same]
        · simp [same]
    | _ => exact ih

/-- An unknown symbol comes behind the variables that are used in front of it. -/
theorem getElem?_variablesInto (unknown : known name = false) (unlisted : name ∉ found)
    (used : name ∈ symbolsOf code) :
    (variablesInto known found code)[(variablesInto known found
      (code.takeWhile (· ≠ .symbol name))).length]? = some name := by
  induction code generalizing found with
  | nil => contradiction
  | cons instruction rest ih =>
    cases instruction with
    | symbol other =>
      by_cases same : other = name
      · -- The first use of the symbol: it is noted right behind the variables found so far.
        subst same
        have new : ¬ (known other || found.contains other) = true := by
          simpa [unknown] using unlisted
        have noted : variablesInto known found (.symbol other :: rest) =
            variablesInto known (found ++ [other]) rest := by
          rw [variablesInto, if_neg new]
        obtain ⟨behind, all⟩ := @prefix_variablesInto rest known (found ++ [other])
        rw [List.takeWhile_cons_of_neg (by simp), noted, ← all, List.append_assoc, variablesInto,
          List.getElem?_append_right (Nat.le_refl _), Nat.sub_self]
        rfl
      · have later : name ∈ symbolsOf rest :=
          (List.mem_cons.mp used).resolve_left fun own => same own.symm
        rw [List.takeWhile_cons_of_pos (by simpa using same), variablesInto, variablesInto]
        refine ih ?_ later
        split
        · exact unlisted
        · rw [List.mem_append, List.mem_singleton]
          exact fun either => either.elim unlisted fun own => same own.symm
    | address value => exact ih unlisted used
    | label other => exact ih unlisted used
    | compute dest comp jump => exact ih unlisted used

/-- A variable comes behind as many others as are used in front of it. -/
theorem getElem?_variablesOf (isNew : isVariable code name = true)
    (used : name ∈ symbolsOf code) :
    (variablesOf code)[variablesBefore code name]? = some name := by
  let known (name : String) : Bool :=
    (predefined.map Prod.fst).contains name || (labelsOf code).contains name
  let front := code.takeWhile (· ≠ .symbol name)
  have unknown : known name = false := by simpa [isVariable, known] using isNew
  have there := getElem?_variablesInto unknown List.not_mem_nil used
  have distinct : (variablesInto known [] front).Nodup := (of_variablesInto List.nodup_nil).1
  have same : (variablesInto known [] front).Perm
      ((symbolsOf front).filter (isVariable code)).dedup := by
    apply (List.perm_ext_iff_of_nodup distinct (List.nodup_dedup _)).mpr
    intro other
    rw [mem_variablesInto, List.mem_dedup, List.mem_filter]
    simp [isVariable, known]
  rw [same.length_eq] at there
  exact there

/-- The platform has the address of each of its names. -/
theorem mem_predefined {word : Word} (listed : predefined.lookup name = some word) :
    (name, word) ∈ predefined := by
  obtain ⟨front, back, rows, -⟩ := List.lookup_eq_some_iff.mp listed
  rw [rows]
  exact List.mem_append_right front List.mem_cons_self

/-- A name without an address of the platform is none of its names. -/
theorem notMem_predefined (unlisted : predefined.lookup name = none) :
    name ∉ predefined.map Prod.fst := by
  intro member
  obtain ⟨row, inside, rfl⟩ := List.mem_map.mp member
  have differ := List.lookup_eq_none_iff.mp unlisted row inside
  simp at differ

/-- The symbols of an assembled program have the addresses that its instructions give them. -/
theorem address?_eq_symbolValue? (assembled : assembleInstructions nodes = .ok program)
    (name : String) :
    (program.symbols.address? name).map UInt16.toNat =
      symbolValue? (instructionsOf nodes) name := by
  have room := (assemblable_of_assembleInstructions assembled).fits
  have memory : romSize = 32768 := rfl
  have labels := labelsAt_of_assembleInstructions assembled
  obtain ⟨base, total, bound, -, allots, larger⟩ := allots_of_assembleInstructions assembled
  obtain ⟨-, knows⟩ := isSome_bindLabels bound
  have platform := larger.trans (bindLabels_placed bound).2.1
  unfold symbolValue?
  cases listed : predefined.lookup name with
  | some address =>
    rw [platform _ _ (SymbolTable.address?_initial (mem_predefined listed))]
    rfl
  | none =>
    have foreign := notMem_predefined listed
    by_cases isLabel : name ∈ labelsOf (instructionsOf nodes)
    · dsimp only
      have short := size_takeWhile_le (instructionsOf nodes) (· ≠ .label name)
      rw [if_pos isLabel, labels.address?_eq isLabel, Option.map_some, UInt16.zero_add,
        UInt16.toNat_ofNat_of_lt' (by change _ < 65536; omega)]
    · have isNew : isVariable (instructionsOf nodes) name = true := by
        simpa [isVariable, isLabel] using foreign
      dsimp only
      rw [if_neg isLabel]
      by_cases used : name ∈ symbolsOf (instructionsOf nodes)
      · have there := getElem?_variablesOf isNew used
        obtain ⟨inside, -⟩ := List.getElem?_eq_some_iff.mp there
        have few := (of_variablesOf (instructionsOf nodes)).2.2
        have uses := length_symbolsOf_le (instructionsOf nodes)
        rw [if_pos used, address?_variable assembled there, Option.map_some, UInt16.toNat_add,
          UInt16.toNat_ofNat']
        change some ((16 + _) % _) = _
        congr 1
        omega
      · have unlisted : name ∉ variablesOf (instructionsOf nodes) := by
          rw [variablesOf, mem_variablesInto]
          simp [used]
        have unknown : (base.address? name).isSome = false := by
          rw [knows name, SymbolTable.address?_eq_none
            (SymbolTable.contains_initial.trans (by simpa using foreign))]
          simpa using isLabel
        rw [if_neg used, allots.kept name unlisted,
          Option.isNone_iff_eq_none.mp (Option.isSome_eq_false_iff.mp unknown)]
        rfl

end Values

/-! ## Words -/

section Words

variable {table : SymbolTable} {nodes : List (Spanned Instruction)} {words : Array Word}
variable {program : Program}

/-- The word of an instruction, if it has one, when the symbols have addresses. -/
def Instruction.word? (address? : String → Option Word) : Instruction → Option Word
  | .address value => some (UInt16.ofNat value)
  | .symbol name => address? name
  | .compute dest comp jump => encodeCompute? dest comp jump
  | .label _ => none

/-- The second pass adds the words of the instructions, with the addresses of the final table. -/
theorem words_of_encodeAll (encoded : encodeAll table words nodes = .ok program) :
    program.words.toList.map some =
      words.toList.map some ++
        (worded (instructionsOf nodes)).map (Instruction.word? program.symbols.address?) := by
  induction nodes generalizing table words with
  | nil =>
    obtain rfl := Except.ok.inj encoded
    exact (List.append_nil _).symm
  | cons node rest ih =>
    obtain ⟨instruction, span⟩ := node
    have pushed {table : SymbolTable} {word : Word}
        (encoded : encodeAll table (words.push word) rest = .ok program)
        (isWord : instruction.labelName?.isNone = true)
        (own : instruction.word? program.symbols.address? = some word) :
        program.words.toList.map some = words.toList.map some ++
          (worded (instruction :: instructionsOf rest)).map
            (Instruction.word? program.symbols.address?) := by
      have first : worded (instruction :: instructionsOf rest) =
          instruction :: worded (instructionsOf rest) := List.filter_cons_of_pos isWord
      rw [first, ih encoded, List.map_cons, own, Array.toList_push, List.map_append,
        List.append_assoc]
      rfl
    cases instruction with
    | label name => exact ih encoded
    | address value => exact pushed encoded rfl rfl
    | symbol name =>
      have stored : encodeAll (table.allocate name).2 (words.push (table.allocate name).1) rest =
          .ok program := encoded
      have known := (encodeAll_extends stored).1 _ _ SymbolTable.address?_allocate
      exact pushed stored rfl known
    | compute dest comp jump =>
      rw [encodeAll] at encoded
      split at encoded
      · rename_i word found
        exact pushed encoded rfl found
      · contradiction

/-- The words of an assembled program are those of its instructions, with the addresses of its
symbols. -/
theorem words_of_assembleInstructions (assembled : assembleInstructions nodes = .ok program) :
    program.words.toList.map some =
      (worded (instructionsOf nodes)).map (Instruction.word? program.symbols.address?) := by
  obtain ⟨base, total, -, -, encoded⟩ := assembleInstructions_eq_ok.mp assembled
  exact words_of_encodeAll encoded

/-- The word of an instruction is the word that the instructions say. -/
theorem toNat_word? (assembled : assembleInstructions nodes = .ok program)
    {instruction : Instruction}
    (inRange : ∀ value, instruction = .address value → value < 65536) :
    (instruction.word? program.symbols.address?).map UInt16.toNat =
      wordValue? (instructionsOf nodes) instruction := by
  cases instruction with
  | address value =>
    have small : value < UInt16.size := inRange value rfl
    rw [Instruction.word?, Option.map_some, UInt16.toNat_ofNat_of_lt' small]
    rfl
  | symbol name => exact address?_eq_symbolValue? assembled name
  | compute dest comp jump => rfl
  | label name => rfl

/-- Instructions are assembled exactly if they can be, and what comes out is what they say. -/
theorem assembleInstructions_spec
    (inRange : ∀ value, .address value ∈ instructionsOf nodes → value < 65536) :
    ((∃ program, assembleInstructions nodes = .ok program) ↔ Assemblable (instructionsOf nodes)) ∧
      ∀ program, assembleInstructions nodes = .ok program →
        Describes (instructionsOf nodes) program := by
  constructor
  · constructor
    · rintro ⟨program, assembled⟩
      exact assemblable_of_assembleInstructions assembled
    · intro able
      have encodable := all_isEncodable.mpr able.encodable
      exact assembleInstructions_accepts able.distinct able.fresh encodable able.fits
  · intro program assembled
    refine ⟨?_, address?_eq_symbolValue? assembled⟩
    calc program.words.toList.map (fun word => some word.toNat)
        = (program.words.toList.map some).map (Option.map UInt16.toNat) := by
          rw [List.map_map]
          rfl
      _ = (worded (instructionsOf nodes)).map fun instruction =>
            (instruction.word? program.symbols.address?).map UInt16.toNat := by
          rw [words_of_assembleInstructions assembled, List.map_map]
          rfl
      _ = (worded (instructionsOf nodes)).map (wordValue? (instructionsOf nodes)) := by
          apply List.map_congr_left
          intro instruction member
          apply toNat_word? assembled
          rintro value rfl
          exact inRange value (List.mem_of_mem_filter member)

/-- A loop that leaves by a label behind it. -/
def summing : List (Spanned Instruction) :=
  [.symbol "i", .compute "M" "1" "", .label "LOOP", .symbol "i", .compute "D" "M" "",
    .symbol "END", .compute "" "D" "JLE", .symbol "sum", .compute "M" "D+M" "", .symbol "LOOP",
    .compute "" "0" "JMP", .label "END", .address 7, .symbol "R15"].map fun instruction =>
      ⟨instruction, .nowhere⟩

/-- The loop is assembled: `i` and `sum` are cells 16 and 17, and `END` is the address 10 already in
front of its definition. -/
theorem summing_assembled : ∃ program, assembleInstructions summing = .ok program ∧
    program.words.toList.map UInt16.toNat =
      [16, 61384, 16, 64528, 10, 58118, 17, 61576, 2, 60039, 7, 15] ∧
    (program.symbols.address? "END").map UInt16.toNat = some 10 ∧
    program.symbols.address? "j" = none := by
  have spec := @assembleInstructions_spec summing (by simp [summing, instructionsOf])
  have able : Assemblable (instructionsOf summing) :=
    ⟨by decide, by decide, by decide, all_isEncodable.mp (by decide)⟩
  obtain ⟨program, assembled⟩ := spec.1.mpr able
  have described := spec.2 program assembled
  have words : (program.words.toList.map UInt16.toNat).map some =
      [16, 61384, 16, 64528, 10, 58118, 17, 61576, 2, 60039, 7, 15].map some := by
    rw [List.map_map]
    exact described.words.trans (by decide)
  have last := (described.symbols "END").trans (by decide : _ = some 10)
  have unused := (described.symbols "j").trans (by decide : _ = none)
  exact ⟨program, assembled, List.map_injective_iff.mpr (Option.some_injective _) words, last,
    Option.map_eq_none_iff.mp unused⟩

end Words

end JackToolchain.Assembly
