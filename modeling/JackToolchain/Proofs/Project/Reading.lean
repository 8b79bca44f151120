import JackToolchain.Proofs.Project.Writing

/-!
# Reading files of settings

A file that writes choices is read as these choices. The reader keeps the section of the last header
and the settings made so far; the invariant of its run is that each setting has its chosen value or
is still to come once.
-/
namespace JackToolchain

open Files (Path)
open Text (Within isBlank)
open Project (Choices Line Setting Value valuesOf)

/-! ## Values -/

section Values

variable {written : List Char}

/-- A written text is read as itself. -/
theorem trimQuotes_of_written {content : String} (own : (Value.text content).Writable)
    (spelled : (Value.text content).Written written) :
    String.ofList (Text.trimQuotes written) = content := by
  have inside : Within (· == '"') content.toList written := by
    refine ⟨⟨['"'], ['"'], spelled, by simp, by simp⟩, fun c first => ?_, fun c last => ?_⟩
    · exact beq_false_of_ne fun same => own.2.1 (same ▸ first)
    · exact beq_false_of_ne fun same => own.2.2 (same ▸ last)
  rw [inside.trimQuotes_eq, String.ofList_toList]

/-- A written truth value is read as itself. -/
theorem readFlag?_of_written {holds : Bool} (spelled : (Value.flag holds).Written written) :
    readFlag? written = some holds := by
  cases holds <;> obtain rfl := spelled <;> decide

/-- A written number is read as itself. -/
theorem readNumber?_of_written {amount : Nat} (own : (Value.number amount).Writable)
    (spelled : (Value.number amount).Written written) : readNumber? written = some amount := by
  have digits : written.filter (· ≠ '_') = Nat.toDigits 10 amount := spelled
  have visible : ∀ c ∈ written, isBlank c = false := by
    intro c member
    by_cases mark : c = '_'
    · rw [mark]
      rfl
    · have inside : c ∈ Nat.toDigits 10 amount := by
        rw [← digits]
        exact List.mem_filter.mpr ⟨member, decide_eq_true mark⟩
      exact (Assembly.visible_of_mem_toDigits inside).2
  have whole : Text.trim written = written :=
    Text.trim_eq_self (fun c first => visible c (List.mem_of_mem_head? first))
      fun c last => visible c (List.mem_of_mem_getLast? last)
  have unsigned : (Nat.toDigits 10 amount).head? ≠ some '+' := by
    intro first
    have digit := Nat.isDigit_of_mem_toDigits (b := 10) (by decide) (by decide)
      (List.mem_of_mem_head? first)
    contradiction
  have small : decide (amount < Text.bound32) = true := decide_eq_true (show amount < _ from own)
  rw [readNumber?, whole, digits, if_neg unsigned, Text.readDecimal?_toDigits,
    Option.filter_some, if_pos small]

end Values

/-! ## Lines -/

/-- What a line makes of settings. -/
def Project.Line.apply (settings : Settings) : Line → Except ProjectFault Settings
  | .remark _ => .ok settings
  | .header name => .ok { settings with «section» := name }
  | .entry key value => settings.assign key value

section Lines

variable {line : Line} {text : List Char}

/-- A text starts with a mark other than the equals sign behind its front if the front does. -/
private theorem head?_of_front {left right : List Char} {mark : Char} (other : '=' ≠ mark)
    (first : (left ++ '=' :: right).head? = some mark) : left.head? = some mark := by
  cases left with
  | nil => exact absurd (Option.some.inj first) other
  | cons c rest => exact first

/-- A line is read as what it holds. -/
theorem readLine_of_spelled (spelled : line.Spelled text) (settings : Settings) :
    settings.readLine (Text.trim text) = line.apply settings := by
  cases spelled with
  | blank own =>
    rw [own.trim_eq]
    rfl
  | comment own =>
    rw [own.trim_eq]
    rfl
  | @header name text inner own named =>
    have titled : Settings.header? ('[' :: inner ++ [']']) = some name := by
      rw [Settings.header?, if_pos ⟨rfl, List.getLast?_concat⟩, List.cons_append,
        List.tail_cons, List.dropLast_concat, named.trim_eq, String.ofList_toList]
    rw [own.trim_eq, Settings.readLine, if_neg (by simp), titled]
    rfl
  | @entry key value text left quoted right own first noRemark noHeader keyed unquoted valued =>
    have untitled : Settings.header? (left ++ '=' :: right) = none := by
      refine if_neg fun ⟨opens, closes⟩ => ?_
      rw [List.getLast?_append_cons] at closes
      cases right with
      | nil => exact absurd (Option.some.inj closes) (by decide)
      | cons c rest =>
        rw [List.getLast?_cons_cons] at closes
        exact noHeader (head?_of_front (by decide) opens) closes
    have code : ¬ ((left ++ '=' :: right).isEmpty ||
        decide ((left ++ '=' :: right).head? = some '#')) = true := by
      rw [Bool.or_eq_true, decide_eq_true_eq, List.isEmpty_iff]
      rintro (empty | opens)
      · simp at empty
      · exact noRemark (head?_of_front (by decide) opens)
    rw [own.trim_eq, Settings.readLine, if_neg code, untitled, Assembly.cutAt?_append first]
    dsimp only
    rw [keyed.trim_eq, unquoted.trimQuotes_eq, valued.trim_eq, String.ofList_toList]
    rfl

end Lines

/-! ## Settings -/

namespace Settings

/-- The value of a setting that was made. -/
def value (settings : Settings) : Setting → Value
  | .name => .text settings.name
  | .source => .text settings.source
  | .output => .text settings.output
  | .bootstrap => .flag settings.options.bootstrap
  | .comments => .flag settings.options.comments
  | .alloc => .text settings.options.runtime.alloc
  | .stringNew => .text settings.options.runtime.stringNew
  | .stringAppend => .text settings.options.runtime.stringAppend
  | .multiply => .text settings.options.runtime.multiply
  | .divide => .text settings.options.runtime.divide
  | .stackBase => .number settings.options.layout.stackBase
  | .tempBase => .number settings.options.layout.tempBase
  | .tempSize => .number settings.options.layout.tempSize
  | .entry => .text settings.options.layout.entry

/-- Makes a setting as it is chosen. -/
def take (settings : Settings) (choices : Choices) : Setting → Settings
  | .name => { settings with name := choices.name }
  | .source => { settings with source := choices.source }
  | .output => { settings with output := choices.output }
  | .bootstrap => { settings with options.bootstrap := choices.bootstrap }
  | .comments => { settings with options.comments := choices.comments }
  | .alloc => settings.setRuntime fun names => { names with alloc := choices.runtime.alloc }
  | .stringNew =>
    settings.setRuntime fun names => { names with stringNew := choices.runtime.stringNew }
  | .stringAppend =>
    settings.setRuntime fun names => { names with stringAppend := choices.runtime.stringAppend }
  | .multiply => settings.setRuntime fun names => { names with multiply := choices.runtime.multiply }
  | .divide => settings.setRuntime fun names => { names with divide := choices.runtime.divide }
  | .stackBase => settings.setLayout fun layout => { layout with stackBase := choices.stackBase }
  | .tempBase => settings.setLayout fun layout => { layout with tempBase := choices.tempBase }
  | .tempSize => settings.setLayout fun layout => { layout with tempSize := choices.tempSize }
  | .entry => settings.setLayout fun layout => { layout with entry := choices.entry }

/-- What no setting changes of the memory map is as usual. -/
structure Usual (settings : Settings) : Prop where
  /-- The cell of the frame pointer. -/
  frameRegister : settings.options.layout.frameRegister = ({} : Vm.Layout).frameRegister
  /-- The cell of the return address. -/
  returnRegister : settings.options.layout.returnRegister = ({} : Vm.Layout).returnRegister
  /-- The largest number. -/
  maxConstant : settings.options.layout.maxConstant = ({} : Vm.Layout).maxConstant

section Making

variable {settings : Settings} {choices : Choices} {setting other : Setting} {written : List Char}

/-- A setting that is made has its chosen value. -/
@[simp]
theorem value_take_self : (settings.take choices setting).value setting = choices.value setting := by
  cases setting <;> rfl

/-- Another setting keeps its value. -/
theorem value_take_of_ne (differ : other ≠ setting) :
    (settings.take choices setting).value other = settings.value other := by
  cases setting <;> cases other <;> first | rfl | contradiction

/-- A setting is made in the section of the line. -/
@[simp]
theorem section_take : (settings.take choices setting).section = settings.section := by
  cases setting <;> rfl

/-- A setting changes nothing of the rest of the memory map. -/
theorem Usual.take (usual : settings.Usual) (choices : Choices) (setting : Setting) :
    (settings.take choices setting).Usual := by
  cases setting <;> exact ⟨usual.frameRegister, usual.returnRegister, usual.maxConstant⟩

/-- A written value is taken as it is chosen. -/
theorem assign_of_written (legal : choices.Legal) (below : settings.section = setting.place.1)
    (spelled : (choices.value setting).Written written) :
    settings.assign setting.place.2 written = .ok (settings.take choices setting) := by
  have own := legal.writable setting
  -- The section stands for itself on both sides, so it is put in before the setting is looked up.
  obtain ⟨_, name, source, output, options⟩ := settings
  dsimp only at below
  subst below
  unfold assign
  cases setting
  case bootstrap | comments =>
    dsimp only [Setting.place]
    rw [readFlag?_of_written spelled]
    rfl
  case stackBase | tempBase | tempSize =>
    dsimp only [Setting.place]
    rw [readNumber?_of_written own spelled]
    rfl
  all_goals
    dsimp only [Setting.place]
    rw [trimQuotes_of_written own spelled]
    rfl

/-- A key that makes no setting of its section is passed over. -/
theorem assign_unknown {key : String}
    (unknown : ∀ setting : Setting, setting.place ≠ (settings.section, key))
    (value : List Char) : settings.assign key value = .ok settings := by
  have other (setting : Setting) (below : settings.section = setting.place.1)
      (own : key = setting.place.2) : False :=
    unknown setting (Prod.ext below.symm own.symm)
  unfold assign
  dsimp only
  split
  case h_1 below => exact (other .name below rfl).elim
  case h_2 below => exact (other .source below rfl).elim
  case h_3 below => exact (other .output below rfl).elim
  case h_4 below => exact (other .bootstrap below rfl).elim
  case h_5 below => exact (other .comments below rfl).elim
  case h_6 below => exact (other .alloc below rfl).elim
  case h_7 below => exact (other .stringNew below rfl).elim
  case h_8 below => exact (other .stringAppend below rfl).elim
  case h_9 below => exact (other .multiply below rfl).elim
  case h_10 below => exact (other .divide below rfl).elim
  case h_11 below => exact (other .stackBase below rfl).elim
  case h_12 below => exact (other .tempBase below rfl).elim
  case h_13 below => exact (other .tempSize below rfl).elim
  case h_14 below => exact (other .entry below rfl).elim
  case h_15 => rfl

end Making

/-! ## Runs -/

/-- Settings that lines complete: each has its chosen value, or the lines write it once. -/
structure Awaits (settings : Settings) (choices : Choices) (lines : List Line) : Prop where
  /-- The rest of the memory map is as usual. -/
  usual : settings.Usual
  /-- Each setting was made, or it is still to come. -/
  each : ∀ setting : Setting,
    valuesOf setting.place settings.section lines = [] ∧
        settings.value setting = choices.value setting ∨
      ∃ written, valuesOf setting.place settings.section lines = [written] ∧
        (choices.value setting).Written written

section Runs

variable {settings : Settings} {choices : Choices} {line : Line} {rest lines : List Line}
variable {texts : List (List Char)}

/-- No two settings have one place. -/
theorem place_injective : Function.Injective Setting.place := by
  intro left right same
  cases left <;> cases right <;> first | rfl | exact absurd same (by decide)

/-- A line makes the settings that are awaited of it. -/
theorem Awaits.step (awaits : settings.Awaits choices (line :: rest)) (legal : choices.Legal) :
    ∃ next, line.apply settings = .ok next ∧ next.Awaits choices rest := by
  cases line with
  | remark content => exact ⟨settings, rfl, awaits.usual, awaits.each⟩
  | header name =>
    refine ⟨{ settings with «section» := name }, rfl,
      ⟨awaits.usual.frameRegister, awaits.usual.returnRegister, awaits.usual.maxConstant⟩,
      fun setting => ?_⟩
    have same : ({ settings with «section» := name } : Settings).value setting =
        settings.value setting := by
      cases setting <;> rfl
    rw [same]
    exact awaits.each setting
  | entry key value =>
    -- A line of a setting was awaited, and behind it no other one is; any other line is passed over.
    by_cases known : ∃ setting : Setting, setting.place = (settings.section, key)
    · obtain ⟨setting, place⟩ := known
      have own := awaits.each setting
      rw [valuesOf, if_pos place.symm] at own
      obtain ⟨empty, -⟩ | ⟨written, values, spelled⟩ := own
      · contradiction
      obtain ⟨rfl, done⟩ := List.cons.inj values
      have made := assign_of_written legal (congrArg Prod.fst place).symm spelled
      rw [congrArg Prod.snd place] at made
      refine ⟨_, made, awaits.usual.take choices setting, fun other => ?_⟩
      rw [section_take]
      by_cases same : other = setting
      · rw [same]
        exact .inl ⟨done, value_take_self⟩
      · have others := awaits.each other
        rw [valuesOf, if_neg fun met => same (place_injective (met.symm.trans place.symm))] at others
        rwa [value_take_of_ne same]
    · have unknown (setting : Setting) : setting.place ≠ (settings.section, key) := fun place =>
        known ⟨setting, place⟩
      refine ⟨settings, assign_unknown unknown value, awaits.usual, fun setting => ?_⟩
      have others := awaits.each setting
      rwa [valuesOf, if_neg (unknown setting).symm] at others

/-- Lines make all settings that are awaited of them. -/
theorem Awaits.run (spelled : List.Forall₂ Line.Spelled lines texts)
    (awaits : settings.Awaits choices lines) (legal : choices.Legal) :
    ∃ final, (texts.map Text.trim).foldlM readLine settings = .ok final ∧
      final.Awaits choices [] := by
  induction spelled generalizing settings with
  | nil => exact ⟨settings, rfl, awaits⟩
  | cons own _ ih =>
    obtain ⟨next, made, later⟩ := awaits.step legal
    obtain ⟨final, others, done⟩ := ih later
    refine ⟨final, ?_, done⟩
    rw [List.map_cons, List.foldlM_cons, readLine_of_spelled own, made]
    exact others

/-- Settings of which nothing is awaited any more are the chosen ones. -/
theorem Awaits.value_eq (awaits : settings.Awaits choices []) (setting : Setting) :
    settings.value setting = choices.value setting := by
  obtain ⟨-, done⟩ | ⟨written, values, -⟩ := awaits.each setting
  · exact done
  · contradiction

/-- Settings of which nothing is awaited any more say how the classes are built. -/
theorem Awaits.options_eq (awaits : settings.Awaits choices []) :
    settings.options = choices.options := by
  have value := awaits.value_eq
  obtain ⟨⟨frameRegister, returnRegister, maxConstant⟩, -⟩ := awaits
  obtain ⟨_, _, _, _, layout, runtime, bootstrap, comments⟩ := settings
  obtain ⟨stackBase, tempBase, tempSize, frame, back, most, entry⟩ := layout
  obtain ⟨alloc, stringNew, stringAppend, multiply, divide⟩ := runtime
  dsimp only at frameRegister returnRegister maxConstant
  subst frameRegister returnRegister maxConstant
  obtain rfl : stackBase = choices.stackBase := Value.number.inj (value .stackBase)
  obtain rfl : tempBase = choices.tempBase := Value.number.inj (value .tempBase)
  obtain rfl : tempSize = choices.tempSize := Value.number.inj (value .tempSize)
  obtain rfl : entry = choices.entry := Value.text.inj (value .entry)
  obtain rfl : alloc = choices.runtime.alloc := Value.text.inj (value .alloc)
  obtain rfl : stringNew = choices.runtime.stringNew := Value.text.inj (value .stringNew)
  obtain rfl : stringAppend = choices.runtime.stringAppend := Value.text.inj (value .stringAppend)
  obtain rfl : multiply = choices.runtime.multiply := Value.text.inj (value .multiply)
  obtain rfl : divide = choices.runtime.divide := Value.text.inj (value .divide)
  obtain rfl : bootstrap = choices.bootstrap := Value.flag.inj (value .bootstrap)
  obtain rfl : comments = choices.comments := Value.flag.inj (value .comments)
  rfl

/-- Settings of which nothing is awaited any more make the chosen project. -/
theorem Awaits.toProject_eq (awaits : settings.Awaits choices []) (legal : choices.Legal)
    (root : Path) : settings.toProject root = .ok (choices.project root) := by
  have name : settings.name = choices.name := Value.text.inj (awaits.value_eq .name)
  have source : settings.source = choices.source := Value.text.inj (awaits.value_eq .source)
  have output : settings.output = choices.output := Value.text.inj (awaits.value_eq .output)
  have filled {text : String} (some : text ≠ "") : text.isEmpty = false := by
    simpa using some
  rw [toProject, name, source, output, awaits.options_eq, filled legal.name, filled legal.source,
    filled legal.output]
  rfl

end Runs

end Settings

/-! ## Files -/

section Files

variable {choices : Choices} {text : String}

/-- A text that writes choices awaits them before it is read. -/
theorem awaits_of_lines {lines : List Line}
    (once : ∀ setting : Setting, ∃ written, valuesOf setting.place "" lines = [written] ∧
      (choices.value setting).Written written) : Settings.Awaits {} choices lines where
  usual := ⟨rfl, rfl, rfl⟩
  each := fun setting => .inr (once setting)

/-- A file of settings is read as the choices that it writes. -/
theorem read_of_lines (root : Path) (legal : choices.Legal) (written : choices.WrittenIn text) :
    Project.read root text = .ok (choices.project root) := by
  obtain ⟨lines, texts, joined, whole, spelled, once⟩ := written
  have filled : texts ≠ [] := by
    rintro rfl
    obtain rfl := List.forall₂_nil_right_iff.mp spelled
    obtain ⟨value, none, -⟩ := once .name
    contradiction
  have cut : (Text.lines text.toList).map (fun line => Text.trim line.2) = texts.map Text.trim := by
    calc (Text.lines text.toList).map (fun line => Text.trim line.2)
        = ((Text.lines text.toList).map Prod.snd).map Text.trim := by
          rw [List.map_map]
          rfl
      _ = texts.map Text.trim := by rw [joined, Text.lines_intercalate filled whole]
  obtain ⟨final, made, done⟩ := (awaits_of_lines once).run spelled legal
  rw [Project.read, cut, made]
  exact done.toProject_eq legal root

/-- Choices can be written, and every text that writes them is read as them. -/
theorem read_of_writtenIn (root : Path) (legal : choices.Legal) :
    (∃ text, choices.WrittenIn text) ∧
      ∀ text, choices.WrittenIn text → Project.read root text = .ok (choices.project root) :=
  ⟨legal.exists_writtenIn, fun _ written => read_of_lines root legal written⟩

/-- Choices with marks in their texts. -/
def scattered : Choices where
  name := "a=b #[c]"
  source := "src"
  output := " /out"
  bootstrap := false
  comments := true
  runtime :=
    { alloc := "", stringNew := "S.new", stringAppend := "S.add", multiply := "M.x", divide := "M.y" }
  stackBase := 1024
  tempBase := 4294967295
  tempSize := 0
  entry := "[Main]"

/-- The lines of a file that writes them out of order, with what stands around each line. -/
def scatteredLines : List (String × Line × String) :=
  [("", .remark "# [project] name = \"c\"".toList, ""),
   ("", .entry "name" "\"c\"".toList, ""),
   ("", .header "machine", "\r"),
   (" ", .entry "entry" "\"[Main]\"".toList, " \r"),
   ("\t", .entry "temp_size" "0".toList, ""),
   ("", .entry "stack_base" "1_024".toList, ""),
   ("", .header "tool", ""),
   ("", .entry "name" "7".toList, ""),
   ("", .header "project", " "),
   ("", .entry "output" "\" /out\"".toList, ""),
   ("", .entry "edition" "[2] = x]".toList, ""),
   ("", .entry "name" "\"a=b #[c]\"".toList, ""),
   (" ", .remark [], "\t"),
   ("", .header "build", ""),
   ("", .entry "comments" "true".toList, ""),
   ("", .header "runtime", ""),
   ("", .entry "divide" "\"M.y\"".toList, ""),
   ("", .entry "string_append" "\"S.add\"".toList, ""),
   ("", .entry "alloc" "\"\"".toList, ""),
   ("", .entry "multiply" "\"M.x\"".toList, ""),
   ("", .entry "string_new" "\"S.new\"".toList, ""),
   ("", .header "build", ""),
   ("", .entry "bootstrap" "false".toList, ""),
   ("", .header "project", ""),
   ("", .entry "source" "\"src\"".toList, ""),
   ("", .header "machine", ""),
   ("", .entry "temp_base" "4294967295".toList, "")]

/-- The file. -/
def scatteredText : String :=
  String.ofList (['\n'].intercalate
    (scatteredLines.map fun item => item.1.toList ++ item.2.1.text ++ item.2.2.toList))

/-- The choices can be written. -/
theorem scattered_legal : scattered.Legal where
  name := by decide
  source := by decide
  output := by decide
  writable := fun setting => by cases setting <;> decide

/-- The file writes the choices. -/
theorem scattered_writtenIn : scattered.WrittenIn scatteredText := by
  refine ⟨scatteredLines.map fun item => item.2.1,
    scatteredLines.map fun item => item.1.toList ++ item.2.1.text ++ item.2.2.toList,
    by rw [scatteredText, String.toList_ofList], by decide +kernel, ?_, fun setting => ?_⟩
  · have plain : ∀ item ∈ scatteredLines, item.2.1.Plain ∧ item.1.toList.all isBlank = true ∧
        item.2.2.toList.all isBlank = true := by
      decide +kernel
    rw [List.forall₂_map_left_iff, List.forall₂_map_right_iff, List.forall₂_same]
    intro item member
    obtain ⟨own, front, back⟩ := plain item member
    exact own.spelled.pad (List.all_eq_true.mp front) (List.all_eq_true.mp back)
  · cases setting <;> exact ⟨_, rfl, by decide⟩

/-- The file is read as the choices. -/
theorem scattered_read : scattered.Legal ∧ scattered.WrittenIn scatteredText ∧
    Project.read ⟨"/p"⟩ scatteredText = .ok (scattered.project ⟨"/p"⟩) :=
  ⟨scattered_legal, scattered_writtenIn,
    (read_of_writtenIn ⟨"/p"⟩ scattered_legal).2 _ scattered_writtenIn⟩

end Files

end JackToolchain
