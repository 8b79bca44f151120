import JackToolchain.Proofs.Vm.Rendering

/-!
# Rendering and reading

Reading inverts rendering: the text of well-spelled commands is read as these commands, each with
the span of its line. Every command that is read is well spelled, so a text that was read has a
rendered form, and rendering what is read from that form changes nothing any more.
-/
namespace JackToolchain.Vm

open Text (placed)

/-- Rendered commands are read as the same commands, and each has the span of its line, which
stands behind the lines of the commands in front of it. -/
theorem readProgram_renders_back :
    (∀ commands : List Command, (∀ command ∈ commands, command.Spelled) →
      ∃ nodes, readProgram (render commands) = .ok nodes ∧
        nodes.map (fun item => item.node) = commands ∧
        ∀ front command back, commands = front ++ command :: back →
          render commands = render front ++ command.text ++ "\n" ++ render back ∧
          nodes[front.length]? = some ⟨command, .behind (render front) command.text⟩) ∧
    ∀ source nodes, readProgram source = .ok nodes →
      ∃ again, readProgram (render (nodes.map fun item => item.node)) = .ok again ∧
        again.map (fun item => item.node) = nodes.map (fun item => item.node) ∧
        render (again.map fun item => item.node) = render (nodes.map fun item => item.node) := by
  constructor
  · intro commands spelled
    refine ⟨_, readProgram_render spelled, Text.map_node_placed "", ?_⟩
    rintro front command back rfl
    constructor
    · rw [render_eq_written, Text.written_append, Text.written_cons, ← String.append_assoc,
        ← String.append_assoc]
      rfl
    · rw [Text.getElem?_placed, String.empty_append]
      rfl
  · intro source nodes read
    have spelled : ∀ command ∈ nodes.map (fun item => item.node), command.Spelled := by
      intro command member
      obtain ⟨item, inside, rfl⟩ := List.mem_map.mp member
      exact spelled_of_readProgram read item inside
    have same : (placed Command.text "" (nodes.map fun item => item.node)).map
        (fun item => item.node) = nodes.map (fun item => item.node) := Text.map_node_placed ""
    exact ⟨_, readProgram_render spelled, same, congrArg render same⟩

/-- Commands of every kind, one with the largest number and two with unusual names. -/
def tour : List Command :=
  [.function "Tour.all" 2, .label ":.", .push .constant 4294967295, .pop .temp 0, .operate .neg,
    .ifGoto ":.", .call "_0" 3, .goto ":.", .return]

/-- A text with a comment, a blank line, white space and a zero in front of a number. -/
def untidy : String := "\tpush  constant 07 // seven\n\n return"

/-- The commands of the untidy text, with their spans. -/
def untidyCommands : List (Spanned Command) :=
  [⟨.push .constant 7, ⟨1, 18⟩⟩, ⟨.return, ⟨30, 36⟩⟩]

/-- Both samples are read back, and the number of the tour's third line is where it was written. -/
theorem tour_renders_back :
    (∀ command ∈ tour, command.Spelled) ∧ readProgram untidy = .ok untidyCommands ∧
    (∃ nodes, readProgram (render tour) = .ok nodes ∧
      nodes[2]? = some ⟨.push .constant 4294967295, ⟨29, 53⟩⟩) ∧
    ∃ again, readProgram "push constant 7\nreturn\n" = .ok again ∧
      again.map (fun item => item.node) = [.push .constant 7, .return] := by
  have spelled : ∀ command ∈ tour, command.Spelled := by decide
  have read : readProgram untidy = .ok untidyCommands := by decide +kernel
  refine ⟨spelled, read, ?_, ?_⟩
  · obtain ⟨nodes, made, -, places⟩ := readProgram_renders_back.1 tour spelled
    have third := (places [.function "Tour.all" 2, .label ":."] _ _ rfl).2
    exact ⟨nodes, made, third⟩
  · obtain ⟨again, made, same, -⟩ := readProgram_renders_back.2 untidy untidyCommands read
    exact ⟨again, made, same⟩

end JackToolchain.Vm
