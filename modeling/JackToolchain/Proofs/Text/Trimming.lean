import JackToolchain.Proofs.Text.Listing

/-!
# Texts between characters of a kind

A text is trimmed of the white space around it, or of the quotation marks. What is left is described
by what stands around it, so the two can be told from a written text without trimming it.
-/
namespace JackToolchain.Text

/-- A text is `core` between characters of a kind, and `core` neither starts nor ends with one. -/
structure Within (kind : Char → Bool) (core text : List Char) : Prop where
  /-- Only characters of the kind stand around it. -/
  split : ∃ front back, text = front ++ core ++ back ∧ (∀ c ∈ front, kind c = true) ∧
    ∀ c ∈ back, kind c = true
  /-- It does not start with one. -/
  start : ∀ c ∈ core.head?, kind c = false
  /-- It does not end with one. -/
  stop : ∀ c ∈ core.getLast?, kind c = false

section Within

variable {kind : Char → Bool} {core text front rest : List Char}

/-- What does not start with a character of a kind is what is left behind such characters. -/
private theorem dropWhile_front (own : ∀ c ∈ front, kind c = true)
    (start : ∀ c ∈ rest.head?, kind c = false) : (front ++ rest).dropWhile kind = rest := by
  rw [List.dropWhile_append_of_pos own]
  cases rest with
  | nil => rfl
  | cons c others => exact List.dropWhile_cons_of_neg (by simp [start c rfl])

/-- What is left of a text without the characters of a kind on either side. -/
theorem Within.strip_eq (within : Within kind core text) :
    ((text.dropWhile kind).reverse.dropWhile kind).reverse = core := by
  obtain ⟨⟨front, back, rfl, own, others⟩, start, stop⟩ := within
  by_cases empty : core = []
  · have all : ∀ c ∈ front ++ core ++ back, kind c = true := by
      intro c member
      rw [empty, List.append_nil] at member
      exact (List.mem_append.mp member).elim (own c) (others c)
    have gone : (front ++ core ++ back ++ []).dropWhile kind = [] :=
      dropWhile_front all (by simp)
    rw [List.append_nil] at gone
    rw [gone, empty]
    rfl
  · have first : ∀ c ∈ (core ++ back).head?, kind c = false := by
      rwa [List.head?_append_of_ne_nil _ empty]
    have last : ∀ c ∈ core.reverse.head?, kind c = false := by
      rwa [List.head?_reverse]
    rw [List.append_assoc, dropWhile_front own first, List.reverse_append,
      dropWhile_front (fun c member => others c (List.mem_reverse.mp member)) last,
      List.reverse_reverse]

/-- A text that neither starts nor ends with a character of the kind stands by itself. -/
theorem Within.self (start : ∀ c ∈ core.head?, kind c = false)
    (stop : ∀ c ∈ core.getLast?, kind c = false) : Within kind core core :=
  ⟨⟨[], [], (List.append_nil core).symm, by simp, by simp⟩, start, stop⟩

/-- More characters of the kind may stand around it. -/
theorem Within.pad {back : List Char} (within : Within kind core text)
    (own : ∀ c ∈ front, kind c = true) (others : ∀ c ∈ back, kind c = true) :
    Within kind core (front ++ text ++ back) := by
  obtain ⟨⟨first, last, rfl, firsts, lasts⟩, start, stop⟩ := within
  refine ⟨⟨front ++ first, last ++ back, by simp only [List.append_assoc], ?_, ?_⟩, start, stop⟩
  · exact fun c member => (List.mem_append.mp member).elim (own c) (firsts c)
  · exact fun c member => (List.mem_append.mp member).elim (lasts c) (others c)

/-- The text between white space is the trimmed text. -/
theorem Within.trim_eq (within : Within isBlank core text) : trim text = core := within.strip_eq

/-- The text between quotation marks is the text without them. -/
theorem Within.trimQuotes_eq (within : Within (· == '"') core text) : trimQuotes text = core :=
  within.strip_eq

end Within

/-- The lines of a text that is put together from lines. -/
theorem lines_intercalate {texts : List (List Char)} (some : texts ≠ [])
    (whole : ∀ text ∈ texts, '\n' ∉ text) :
    (lines (['\n'].intercalate texts)).map Prod.snd = texts := by
  induction texts with
  | nil => contradiction
  | cons text rest ih =>
    have own : (lines text).map Prod.snd = [text] := lines_whole (whole text List.mem_cons_self)
    cases rest with
    | nil =>
      rw [List.intercalate_singleton]
      exact own
    | cons next rest =>
      rw [List.intercalate_cons_cons, List.append_assoc, List.singleton_append, lines_append, own,
        ih (List.cons_ne_nil _ _) fun text member => whole text (List.mem_cons_of_mem _ member)]
      rfl

end JackToolchain.Text
