import JackToolchain.Proofs.Assembly.Places
import JackToolchain.Proofs.Programs
import JackToolchain.Proofs.Vm.Translation

/-!
# Comments in translations

A program may be written with a comment for each command. The assembler passes comments over, so
the annotated text and the plain one are assembled alike. A name of a unit may hold line ends, but
no comment quotes it: a comment stands on a line of its own whatever is around it.
-/
namespace JackToolchain

open Assembly (Commented Line codeOf codeOf_append codeOf_flatten linesText)
open Vm (Command Layout Numbering blocksInto unitLines)

/-! ## Lines with comments -/

/-- The items of written lines are what is read from the texts of their instructions, on however
many lines each of these stands. -/
theorem items_commented {lines : List Line} (some : lines ≠ []) (own : Commented lines) :
    (Text.items (linesText lines ++ "\n")).map (fun item => item.node) =
      (codeOf lines).flatMap fun instruction => Text.contents instruction.text.toList := by
  have written : linesText lines ++ "\n" =
      String.ofList (Text.listing (lines.map fun line => line.text.toList)) := by
    rw [← Assembly.toList_linesText some, String.ofList_toList]
  rw [written, Text.items_listing_flatMap, List.flatMap_map, codeOf,
    List.filterMap_eq_flatMap_toList, List.flatMap_assoc]
  refine List.flatMap_congr fun line member => ?_
  cases line with
  | code instruction => exact (List.append_nil _).symm
  | comment comment =>
    have text : (Line.comment comment).text.toList = '/' :: '/' :: ' ' :: comment.toList := by
      rw [Line.text, String.toList_append]
      rfl
    have whole : '\n' ∉ '/' :: '/' :: ' ' :: comment.toList := by simp [own comment member]
    rw [text, Text.contents_whole whole]
    rfl

/-! ## Units -/

section Units

variable {layout : Layout} {unit : String} {commands : List (Spanned Command)}

/-- The blocks of commands hold the same instructions with comments and without. -/
private theorem blocksInto_alike (comments others : Bool) {done otherDone : List (List Line)}
    (same : done.map codeOf = otherDone.map codeOf) (numbering : Numbering) :
    Alike (fun left right => left.map codeOf = right.map codeOf)
      (blocksInto layout comments unit done numbering commands)
      (blocksInto layout others unit otherDone numbering commands) := by
  induction commands generalizing done otherDone numbering with
  | nil => exact .ok (by rw [List.map_reverse, same, List.map_reverse])
  | cons command rest ih =>
    rw [blocksInto, blocksInto]
    split
    · exact ih (by rw [List.map_cons, List.map_cons, Vm.codeOf_blockLines, Vm.codeOf_blockLines,
        same]) _
    · exact .error rfl

/-- The lines of a unit hold the same instructions with comments and without. -/
theorem unitLines_alike (comments others : Bool) :
    Alike (fun left right => codeOf left = codeOf right) (unitLines layout comments unit commands)
      (unitLines layout others unit commands) :=
  (blocksInto_alike comments others rfl _).bind fun left right same => .ok (by
    rw [codeOf_flatten, same, codeOf_flatten])

/-- A unit that is translated is translated with comments and without, to lines that hold the same
instructions. -/
theorem translateUnit_comments {options : Options} {unit : SourceUnit} {lines : List Line}
    (made : translateUnit options unit = .ok lines) (comments : Bool) :
    ∃ others, translateUnit { options with comments } unit = .ok others ∧
      codeOf others = codeOf lines := by
  obtain ⟨commands, read, unitMade⟩ := bind_eq_ok.mp (SourceUnit.reporting_eq_ok.mp made)
  have alike := @unitLines_alike options.layout unit.name commands options.comments comments
  rw [unitMade] at alike
  generalize otherMade : unitLines options.layout comments unit.name commands = outcome at alike
  obtain ⟨same⟩ := alike
  exact ⟨_, SourceUnit.reporting_eq_ok.mpr (bind_eq_ok.mpr ⟨commands, read, otherMade⟩), same.symm⟩

end Units

/-! ## Programs -/

section Programs

variable {options : Options} {units : List SourceUnit} {text : String}

/-- The instructions of a program are those of its units and do not depend on comments. -/
theorem codeOf_programLines_comments (comments : Bool) {written others : List (List Line)}
    (same : written.map codeOf = others.map codeOf) :
    codeOf (programLines { options with comments } written) =
      codeOf (programLines options others) := by
  have inside : codeOf written.flatten = codeOf others.flatten := by
    rw [codeOf_flatten, same, codeOf_flatten]
  unfold programLines
  dsimp only
  split
  · rw [codeOf_append, codeOf_append, inside, Vm.bootstrapLines, Vm.bootstrapLines,
      Vm.codeOf_blockLines, Vm.codeOf_blockLines]
  · rw [codeOf_append, codeOf_append, inside]

/-- The assembler finds in the text of a translation what it reads from the texts of the
instructions. -/
theorem items_programLines {units : List (String × List Command)} {written : List (List Line)}
    (made : List.Forall₂ (HasLines options) units written) :
    (Text.items (linesText (programLines options written) ++ "\n")).map (fun item => item.node) =
      (codeOf (programLines options written)).flatMap fun instruction =>
        Text.contents instruction.text.toList :=
  items_commented (programLines_ne_nil options written) (commented_programLines made)

/-- Units that are translated are translated with comments and without, to lines that hold the same
instructions. -/
theorem exists_lines_comments {written : List (List Line)} (comments : Bool)
    (made : List.Forall₂ (fun unit lines => translateUnit options unit = .ok lines) units written) :
    ∃ others, List.Forall₂ (fun unit lines =>
        translateUnit { options with comments } unit = .ok lines) units others ∧
      others.map codeOf = written.map codeOf := by
  induction made with
  | nil => exact ⟨[], .nil, rfl⟩
  | cons own _ ih =>
    obtain ⟨lines, unitMade, code⟩ := translateUnit_comments own comments
    obtain ⟨others, laterMade, laterCode⟩ := ih
    refine ⟨lines :: others, .cons unitMade laterMade, ?_⟩
    rw [List.map_cons, List.map_cons, code, laterCode]

/-- A program that is translated is translated with comments and without, and the assembler finds
the same items in both texts. -/
theorem translate_comments (translated : translate options units = .ok text) (comments : Bool) :
    ∃ other, translate { options with comments } units = .ok other ∧
      (Text.items other).map (fun item => item.node) =
        (Text.items text).map fun item => item.node := by
  obtain ⟨written, made, rfl⟩ := link_map_eq_ok.mp translated
  obtain ⟨others, othersMade, code⟩ := exists_lines_comments comments made
  refine ⟨_, link_map_eq_ok.mpr ⟨others, othersMade, rfl⟩, ?_⟩
  rw [items_programLines (forall₂_hasLines othersMade), items_programLines (forall₂_hasLines made),
    codeOf_programLines_comments comments code]

/-- Comments are inert. Units that are translated, for whatever memory map and with a bootstrap or
without, are translated with comments and without, and both texts are assembled to the same words
and symbols or refused with the same fault. -/
theorem assemble_comments (translated : translate options units = .ok text) :
    ∃ annotated plain, translate { options with comments := true } units = .ok annotated ∧
      translate { options with comments := false } units = .ok plain ∧
      (Assembly.assemble annotated).mapError Spanned.node =
        (Assembly.assemble plain).mapError Spanned.node := by
  obtain ⟨annotated, withComments, annotatedItems⟩ := translate_comments translated true
  obtain ⟨plain, without, plainItems⟩ := translate_comments translated false
  refine ⟨annotated, plain, withComments, without, Alike.eq_iff.mp ?_⟩
  exact Assembly.assemble_alike (annotatedItems.trans plainItems.symm)

/-- The unit whose name ends a line is assembled alike with comments and without. -/
theorem broken_name_assemble_comments :
    ∃ annotated plain,
      translate { plainOptions with comments := true } [brokenUnit] = .ok annotated ∧
      translate { plainOptions with comments := false } [brokenUnit] = .ok plain ∧
      (Assembly.assemble annotated).mapError Spanned.node =
        (Assembly.assemble plain).mapError Spanned.node :=
  assemble_comments (eq_ok_getD "" (by decide))

end Programs

end JackToolchain
