import JackToolchain.Proofs.Vm.Numbers

/-!
# Refused commands

A unit has no lines exactly if one of its commands is out of range. The fault is that of the first
such command: what the commands before it did to labels and counters does not matter, and neither
does what comes behind it.
-/
namespace JackToolchain.Vm

open Assembly (Line)

/-- The segment has no such index. -/
def Segment.Lacks (layout : Layout) (index : Nat) : Segment → Prop
  | .constant | .local | .argument | .this | .that => layout.maxConstant < index
  | .temp => layout.tempSize ≤ index
  | .pointer => 1 < index
  | .static => False

/-- The commands that nothing implements: those with an index that their segment lacks, those with
a count that no instruction loads, and those that pop into a constant. -/
inductive Command.OutOfRange (layout : Layout) : Command → Prop where
  | push {segment : Segment} {index : Nat} (lacks : segment.Lacks layout index) :
    OutOfRange layout (.push segment index)
  | pop {segment : Segment} {index : Nat} (lacks : segment.Lacks layout index) :
    OutOfRange layout (.pop segment index)
  | popConstant (index : Nat) : OutOfRange layout (.pop .constant index)
  | function (name : String) {locals : Nat} (above : layout.maxConstant < locals) :
    OutOfRange layout (.function name locals)
  | call (name : String) {args : Nat} (above : layout.maxConstant - frameSize < args) :
    OutOfRange layout (.call name args)

/-- The fault of a command that is out of range. An index that is too large is reported before a
pop into a constant. -/
inductive Command.Refused (layout : Layout) : Command → Fault → Prop where
  | push {segment : Segment} {index : Nat} (lacks : segment.Lacks layout index) :
    Refused layout (.push segment index) (.invalidIndex segment index (.push segment index))
  | pop {segment : Segment} {index : Nat} (lacks : segment.Lacks layout index) :
    Refused layout (.pop segment index) (.invalidIndex segment index (.pop segment index))
  | popConstant {index : Nat} (small : index ≤ layout.maxConstant) :
    Refused layout (.pop .constant index) (.unsupportedCommand (.pop .constant index))
  | function (name : String) {locals : Nat} (above : layout.maxConstant < locals) :
    Refused layout (.function name locals)
      (.malformed (.countOutOfRange locals (.function name locals) layout.maxConstant))
  | call (name : String) {args : Nat} (above : layout.maxConstant - frameSize < args) :
    Refused layout (.call name args)
      (.malformed (.countOutOfRange args (.call name args) (layout.maxConstant - frameSize)))

section Commands

variable {layout : Layout} {unit : String} {numbering : Numbering} {command : Command}
variable {fault : Fault}

/-- A segment lacks the indices that it does not hold. -/
theorem Segment.lacks_iff (segment : Segment) (index : Nat) :
    segment.Lacks layout index ↔ ¬ segment.Holds layout index := by
  cases segment <;> simp [Segment.Lacks, Segment.Holds]

/-- A command is out of range or in range. -/
theorem Command.outOfRange_iff : command.OutOfRange layout ↔ ¬ command.InRange layout := by
  constructor
  · intro out
    cases out with
    | @push segment index lacks => exact (segment.lacks_iff index).mp lacks
    | @pop segment index lacks => exact fun own => (segment.lacks_iff index).mp lacks own.2
    | popConstant => exact fun own => own.1 rfl
    | function name above => exact Nat.not_le.mpr above
    | call name above => exact Nat.not_le.mpr above
  · intro out
    cases command with
    | push segment index => exact .push ((segment.lacks_iff index).mpr out)
    | pop segment index =>
      by_cases constant : segment = .constant
      · rw [constant]
        exact .popConstant index
      · have lacks : ¬ segment.Holds layout index := fun own => out ⟨constant, own⟩
        exact .pop ((segment.lacks_iff index).mpr lacks)
    | function name locals => exact .function name (Nat.not_le.mp out)
    | call name args => exact .call name (Nat.not_le.mp out)
    | _ => exact absurd trivial out

/-- A refused command is out of range. -/
theorem Command.Refused.outOfRange (refused : command.Refused layout fault) :
    command.OutOfRange layout := by
  cases refused with
  | push lacks => exact .push lacks
  | pop lacks => exact .pop lacks
  | popConstant => exact .popConstant _
  | function name above => exact .function name above
  | call name above => exact .call name above

/-- An index that lives nowhere is one that the segment lacks. -/
theorem lacks_of_locate? {segment : Segment} {index : Nat}
    (located : locate? layout unit segment index = none) : segment.Lacks layout index := by
  rw [segment.lacks_iff, ← @isSome_locate? layout unit, located]
  exact Bool.false_ne_true

/-- A place that no word is popped into is a constant. -/
theorem constant_of_pop? {segment : Segment} {index : Nat} {location : Location}
    (located : locate? layout unit segment index = some location)
    (popped : location.pop? layout = none) :
    segment = .constant ∧ index ≤ layout.maxConstant := by
  have constant : segment = .constant := by
    by_contra other
    have some := (isSome_pop? located).mpr other
    rw [popped] at some
    contradiction
  subst constant
  exact ⟨rfl, isSome_locate?.mp (Option.isSome_of_eq_some located)⟩

/-- A command without instructions is refused, wherever it stands. -/
theorem refused_of_instructions
    (failed : command.instructions layout unit numbering = .error fault) :
    command.Refused layout fault := by
  cases command with
  | push segment index =>
    simp only [Command.instructions, Command.countLimit?, Command.block, locate] at failed
    cases located : locate? layout unit segment index with
    | some location =>
      rw [located] at failed
      contradiction
    | none =>
      rw [located] at failed
      obtain rfl := Except.error.inj failed
      exact .push (lacks_of_locate? located)
  | pop segment index =>
    simp only [Command.instructions, Command.countLimit?, Command.block, locate] at failed
    cases located : locate? layout unit segment index with
    | none =>
      rw [located] at failed
      obtain rfl := Except.error.inj failed
      exact .pop (lacks_of_locate? located)
    | some location =>
      simp only [located, bind, Except.bind] at failed
      cases popped : location.pop? layout with
      | some block =>
        rw [popped] at failed
        contradiction
      | none =>
        rw [popped] at failed
        obtain rfl := Except.error.inj failed
        obtain ⟨rfl, small⟩ := constant_of_pop? located popped
        exact .popConstant small
  | function name locals =>
    simp only [Command.instructions, Command.countLimit?, Command.block] at failed
    split at failed
    · obtain rfl := Except.error.inj failed
      exact .function name (by assumption)
    · contradiction
  | call name args =>
    simp only [Command.instructions, Command.countLimit?, Command.block] at failed
    split at failed
    · obtain rfl := Except.error.inj failed
      exact .call name (by assumption)
    · contradiction
  | _ => contradiction

end Commands

/-! ## Wording -/

section Wording

variable (segment : Segment) (index count limit : Nat) (command : Command)

/-- The wording of an index that a segment lacks quotes the command. -/
theorem message_invalidIndex : (Fault.invalidIndex segment index command).message =
    ("invalid index " ++ index.repr ++ " for segment '" ++ segment.name ++ "' in ") ++
      ("`" ++ command.text ++ "`") ++ "" := by
  have cut : "' in `" = "' in " ++ "`" := by simp
  calc (Fault.invalidIndex segment index command).message =
      "invalid index " ++ index.repr ++ " for segment '" ++ segment.name ++ "' in `" ++
        command.text ++ "`" := rfl
    _ = _ := by simp only [cut, String.append_assoc, String.append_empty]

/-- The wording of a count that is too large quotes the command. -/
theorem message_countOutOfRange :
    (Fault.malformed (.countOutOfRange count command limit)).message =
      ("syntax error: count " ++ count.repr ++ " in ") ++ ("`" ++ command.text ++ "`") ++
        (" is out of range (maximum is " ++ limit.repr ++ ")") := by
  have first : "syntax error: count " = "syntax error: " ++ "count " := by simp
  have cut : " in `" = " in " ++ "`" := by simp
  have later : "` is out of range (maximum is " = "`" ++ " is out of range (maximum is " := by simp
  calc (Fault.malformed (.countOutOfRange count command limit)).message =
      "syntax error: " ++ ("count " ++ count.repr ++ " in `" ++ command.text ++
        "` is out of range (maximum is " ++ limit.repr ++ ")") := rfl
    _ = _ := by simp only [first, cut, later, String.append_assoc]

/-- The wording of a command that nothing implements quotes it. -/
theorem message_unsupportedCommand : (Fault.unsupportedCommand command).message =
    "unsupported instruction " ++ ("`" ++ command.text ++ "`") ++ "" := by
  have cut : "unsupported instruction `" = "unsupported instruction " ++ "`" := by simp
  calc (Fault.unsupportedCommand command).message =
      "unsupported instruction `" ++ command.text ++ "`" := rfl
    _ = _ := by simp only [cut, String.append_assoc, String.append_empty]

/-- The wording of a refusal quotes the command. -/
theorem Command.Refused.quotes {layout : Layout} {command : Command} {fault : Fault}
    (refused : command.Refused layout fault) :
    ∃ before after, fault.message = before ++ ("`" ++ command.text ++ "`") ++ after := by
  cases refused with
  | push | pop => exact ⟨_, _, message_invalidIndex _ _ _⟩
  | popConstant => exact ⟨_, _, message_unsupportedCommand _⟩
  | function | call => exact ⟨_, _, message_countOutOfRange _ _ _⟩

end Wording

/-! ## Units -/

section Units

variable {layout : Layout} {comments : Bool} {unit : String} {commands : List (Spanned Command)}
variable {error : Spanned Fault}

/-- The fault of commands is that of the first one without instructions. -/
theorem first_of_blocksInto {done : List (List Line)} {numbering : Numbering}
    (failed : blocksInto layout comments unit done numbering commands = .error error) :
    ∃ front item back, commands = front ++ item :: back ∧
      (∀ earlier ∈ front, earlier.node.InRange layout) ∧ item.node.Refused layout error.node ∧
      error.span = item.span := by
  induction commands generalizing done numbering with
  | nil => contradiction
  | cons item rest ih =>
    obtain ⟨command, span⟩ := item
    rw [blocksInto] at failed
    cases made : command.instructions layout unit numbering with
    | error fault =>
      rw [made] at failed
      rw [← Except.error.inj failed]
      have none : ∀ earlier ∈ ([] : List (Spanned Command)), earlier.node.InRange layout :=
        fun earlier member => absurd member List.not_mem_nil
      exact ⟨[], ⟨command, span⟩, rest, rfl, none, refused_of_instructions made, rfl⟩
    | ok block =>
      rw [made] at failed
      obtain ⟨front, first, back, rfl, before, refused, place⟩ := ih failed
      have own : command.InRange layout := exists_instructions_iff.mp ⟨block, made⟩
      exact ⟨⟨command, span⟩ :: front, first, back, rfl, List.forall_mem_cons.mpr ⟨own, before⟩,
        refused, place⟩

/-- A unit has no lines exactly if a command is out of range. Its fault is the refusal of the
first such command, with the span of that command, and its wording quotes it. -/
theorem unitLines_refuses_first (layout : Layout) (comments : Bool) (unit : String)
    (commands : List (Spanned Command)) :
    ((∃ error, unitLines layout comments unit commands = .error error) ↔
      ∃ item ∈ commands, item.node.OutOfRange layout) ∧
    ∀ error, unitLines layout comments unit commands = .error error →
      ∃ front item back, commands = front ++ item :: back ∧
        (∀ earlier ∈ front, ¬ earlier.node.OutOfRange layout) ∧
        item.node.OutOfRange layout ∧ item.node.Refused layout error.node ∧
        error.span = item.span ∧
        ∃ before after, error.node.message = before ++ ("`" ++ item.node.text ++ "`") ++ after := by
  have first (error : Spanned Fault)
      (failed : unitLines layout comments unit commands = .error error) :
      ∃ front item back, commands = front ++ item :: back ∧
        (∀ earlier ∈ front, ¬ earlier.node.OutOfRange layout) ∧
        item.node.OutOfRange layout ∧ item.node.Refused layout error.node ∧
        error.span = item.span ∧
        ∃ before after, error.node.message =
          before ++ ("`" ++ item.node.text ++ "`") ++ after := by
    have cause : blocksInto layout comments unit [] { scope := unit } commands = .error error := by
      rcases bind_eq_error.mp failed with cause | ⟨blocks, -, joined⟩
      · exact cause
      · contradiction
    obtain ⟨front, item, back, split, before, refused, place⟩ := first_of_blocksInto cause
    refine ⟨front, item, back, split, ?_, refused.outOfRange, refused, place, refused.quotes⟩
    intro earlier member out
    exact Command.outOfRange_iff.mp out (before earlier member)
  refine ⟨⟨?_, ?_⟩, first⟩
  · rintro ⟨error, failed⟩
    obtain ⟨front, item, back, rfl, -, out, -⟩ := first error failed
    exact ⟨item, List.mem_append_right _ List.mem_cons_self, out⟩
  · rintro ⟨item, member, out⟩
    cases made : unitLines layout comments unit commands with
    | error error => exact ⟨error, rfl⟩
    | ok lines =>
      have own := inRange_of_unitLines made item member
      exact absurd own (Command.outOfRange_iff.mp out)

/-- Four commands, the second and the fourth of them out of range. -/
def overreaching : List (Spanned Command) :=
  [⟨.push .static 40000, ⟨0, 17⟩⟩, ⟨.pop .constant 3, ⟨18, 32⟩⟩, ⟨.operate .add, ⟨33, 36⟩⟩,
    ⟨.call "Main.main" 32763, ⟨37, 57⟩⟩]

/-- The pop into a constant is refused although the call would be refused as well. -/
theorem overreaching_refused :
    unitLines {} false "Main" overreaching =
      .error ⟨.unsupportedCommand (.pop .constant 3), ⟨18, 32⟩⟩ ∧
    ∃ front item back, overreaching = front ++ item :: back ∧
      (∀ earlier ∈ front, ¬ earlier.node.OutOfRange {}) ∧
      item.node.Refused {} (.unsupportedCommand (.pop .constant 3)) ∧ item.span = ⟨18, 32⟩ := by
  have failed : unitLines {} false "Main" overreaching =
      .error ⟨.unsupportedCommand (.pop .constant 3), ⟨18, 32⟩⟩ := rfl
  obtain ⟨front, item, back, split, before, -, refused, place, -⟩ :=
    (unitLines_refuses_first {} false "Main" overreaching).2 _ failed
  exact ⟨failed, front, item, back, split, before, refused, place.symm⟩

end Units

end JackToolchain.Vm
