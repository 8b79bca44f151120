import JackToolchain.Assembly.Reader
import JackToolchain.Proofs.Text.Places
import JackToolchain.Vm.Reader

/-!
# Positions of read lines

Stack-machine text and assembly text are read alike: each item of the listing is read by itself, and
what it is read as has the place of the item. The first item that cannot be read is the place of
the fault.
-/
namespace JackToolchain

open Text (items IsListing Legible)

/-- A program is read faithfully from a source: `read` reads one line without its comment and the
white space around it. -/
structure Faithful {α : Type} (read : String → Except Fault α)
    (readAll : String → Outcome (List (Spanned α))) (source : String) : Prop where
  /-- The items of the source are its lines, but for blank ones, and stand where they say. -/
  listing : IsListing source (items source)
  /-- A program that is read has what each item is read as, with the span of the item. -/
  accepts : ∀ nodes, readAll source = .ok nodes ↔
    List.Forall₂ (fun item node => read item.node = .ok node.node ∧ node.span = item.span)
      (items source) nodes
  /-- What a span covers is read by itself as what has the span. -/
  alone : ∀ nodes, readAll source = .ok nodes → ∀ node ∈ nodes, ∃ text,
    node.span.Covers source text ∧ read text = .ok node.node ∧
      readAll text = .ok [⟨node.node, .behind "" text⟩]
  /-- A fault is the one of the first item that cannot be read, with the span of the item. -/
  refuses : ∀ fault, readAll source = .error fault ↔ ∃ front item back,
    items source = front ++ item :: back ∧ (∀ other ∈ front, ∃ value, read other.node = .ok value) ∧
      read item.node = .error fault.node ∧ fault.span = item.span

/-- Reads one item; what it is read as has the place of the item. -/
def readItem {α : Type} (read : String → Except Fault α) (item : Spanned String) :
    Outcome (Spanned α) :=
  match read item.node with
  | .ok value => .ok ⟨value, item.span⟩
  | .error fault => .error ⟨fault, item.span⟩

section Reading

variable {α : Type} {read : String → Except Fault α} {item : Spanned String} {source : String}

/-- An item is read with its span. -/
theorem readItem_eq_ok {node : Spanned α} :
    readItem read item = .ok node ↔ read item.node = .ok node.node ∧ node.span = item.span := by
  unfold readItem
  cases own : read item.node with
  | error fault => simp
  | ok value =>
    obtain ⟨other, span⟩ := node
    simp [eq_comm]

/-- The fault of an item has its span. -/
theorem readItem_eq_error {fault : Spanned Fault} :
    readItem read item = .error fault ↔
      read item.node = .error fault.node ∧ fault.span = item.span := by
  unfold readItem
  cases own : read item.node with
  | error other =>
    obtain ⟨node, span⟩ := fault
    simp [eq_comm]
  | ok value => simp

/-- A listing is refused exactly at the first item that cannot be read. -/
theorem mapM_readItem_eq_error {items : List (Spanned String)} {fault : Spanned Fault} :
    items.mapM (readItem read) = .error fault ↔ ∃ front item back, items = front ++ item :: back ∧
      (∀ other ∈ front, ∃ value, read other.node = .ok value) ∧
        read item.node = .error fault.node ∧ fault.span = item.span := by
  induction items with
  | nil =>
    rw [List.mapM_nil]
    refine ⟨fun ends => by contradiction, ?_⟩
    rintro ⟨front, item, back, none, -⟩
    exact absurd none (List.append_ne_nil_of_right_ne_nil _ (List.cons_ne_nil _ _)).symm
  | cons first rest ih =>
    rw [List.mapM_cons, bind_eq_error, readItem_eq_error]
    constructor
    · rintro (⟨refused, span⟩ | ⟨value, own, failed⟩)
      · exact ⟨[], first, rest, rfl, fun _ member => by contradiction, refused, span⟩
      · obtain ⟨front, item, back, rfl, ready, refused, span⟩ :=
          ih.mp ((bind_eq_error.mp failed).resolve_right (by rintro ⟨_, _, ends⟩; contradiction))
        exact ⟨first :: front, item, back, rfl,
          List.forall_mem_cons.mpr ⟨⟨_, (readItem_eq_ok.mp own).1⟩, ready⟩, refused, span⟩
    · rintro ⟨_ | ⟨other, front⟩, item, back, split, ready, refused, span⟩
      · obtain ⟨rfl, rfl⟩ := List.cons.inj split
        exact .inl ⟨refused, span⟩
      · obtain ⟨rfl, rfl⟩ := List.cons.inj split
        obtain ⟨⟨value, own⟩, others⟩ := List.forall_mem_cons.mp ready
        refine .inr ⟨⟨value, first.span⟩, readItem_eq_ok.mpr ⟨own, rfl⟩, ?_⟩
        refine bind_eq_error.mpr (.inl ?_)
        exact ih.mpr ⟨front, item, back, rfl, others, refused, span⟩

/-- The item of a listing is by itself a listing of one item. -/
theorem items_alone (member : item ∈ items source) :
    items item.node = [⟨item.node, .behind "" item.node⟩] := by
  obtain ⟨lines, -, whole, lists⟩ := (Text.isListing_items source).lines
  obtain ⟨legible, single⟩ := lists.legible whole item member
  exact Text.items_legible legible single

/-- A reader that reads a listing item by item is faithful. -/
theorem faithful_of_mapM {readAll : String → Outcome (List (Spanned α))}
    (each : ∀ source, readAll source = (items source).mapM (readItem read)) (source : String) :
    Faithful read readAll source := by
  have accepts (source : String) (nodes : List (Spanned α)) : readAll source = .ok nodes ↔
      List.Forall₂ (fun item node => read item.node = .ok node.node ∧ node.span = item.span)
        (items source) nodes := by
    rw [each, mapM_eq_ok]
    simp only [readItem_eq_ok]
  refine ⟨Text.isListing_items source, accepts source, fun nodes own node member => ?_,
    fun fault => by rw [each, mapM_readItem_eq_error]⟩
  obtain ⟨item, inside, read, span⟩ := exists_mem_left ((accepts source nodes).mp own) member
  refine ⟨item.node, ?_, read, ?_⟩
  · rw [span]
    exact (Text.isListing_items source).covers item inside
  · rw [accepts, items_alone inside]
    exact .cons ⟨read, rfl⟩ .nil

end Reading

/-- Stack-machine text and assembly text are read faithfully. -/
theorem readProgram_faithful (source : String) :
    Faithful Vm.Command.read Vm.readProgram source ∧
      Faithful Assembly.Instruction.read Assembly.readProgram source := by
  have vm (source : String) :
      Vm.readProgram source = (items source).mapM (readItem Vm.Command.read) :=
    congrArg (fun step => List.mapM step _) (funext fun item => by
      rw [readItem]
      cases Vm.Command.read item.node <;> rfl)
  have assembly (source : String) :
      Assembly.readProgram source = (items source).mapM (readItem Assembly.Instruction.read) :=
    congrArg (fun step => List.mapM step _) (funext fun item => by
      rw [readItem]
      cases Assembly.Instruction.read item.node <;> rfl)
  exact ⟨faithful_of_mapM vm source, faithful_of_mapM assembly source⟩

end JackToolchain
