import JackToolchain.Proofs.Jack.Scope
import Mathlib.Data.List.Induction

/-!
# The numbers of declared names

A table that is changed in place, by any declarations and whether they succeed or not, numbers the
names of each storage from zero without gaps, in the order of their first declarations. A declaration
fails exactly if its name is bound, and then it changes nothing.

What is bound is said by the first declaration of each name, so a table knows these declarations
and no others.
-/
namespace JackToolchain.Jack

/-! ## First declarations -/

/-- The first declaration of each name, in order. -/
def firstDeclarations : List Declaration → List Declaration
  | [] => []
  | item :: rest => item :: (firstDeclarations rest).filter fun other => other.name ≠ item.name

/-- The names of a storage in the order of their first declarations. -/
def namesOf (storage : Storage) (declarations : List Declaration) : List String :=
  ((firstDeclarations declarations).filter fun item => item.storage = storage).map Declaration.name

section First

variable {declarations : List Declaration} {item : Declaration} {name : String}

/-- The declared names are those of the first declarations. -/
theorem mem_firstDeclarations :
    name ∈ (firstDeclarations declarations).map Declaration.name ↔
      name ∈ declarations.map Declaration.name := by
  induction declarations with
  | nil => rfl
  | cons first rest ih =>
    rw [firstDeclarations, List.map_cons, List.map_cons, List.mem_cons, List.mem_cons, ← ih]
    by_cases same : name = first.name
    · simp [same]
    · refine or_congr_right ?_
      simp only [List.mem_map, List.mem_filter, decide_eq_true_eq]
      constructor
      · rintro ⟨other, ⟨member, -⟩, named⟩
        exact ⟨other, member, named⟩
      · rintro ⟨other, member, rfl⟩
        exact ⟨other, ⟨member, same⟩, rfl⟩

/-- No name has two first declarations. -/
theorem nodup_firstDeclarations (declarations : List Declaration) :
    ((firstDeclarations declarations).map Declaration.name).Nodup := by
  induction declarations with
  | nil => exact List.nodup_nil
  | cons first rest ih =>
    rw [firstDeclarations, List.map_cons, List.nodup_cons]
    constructor
    · simp
    · exact ih.sublist (List.filter_sublist.map _)

/-- A declaration behind others is a first one if its name is new. -/
theorem firstDeclarations_concat (declarations : List Declaration) (item : Declaration) :
    firstDeclarations (declarations ++ [item]) =
      firstDeclarations declarations ++
        if item.name ∈ declarations.map Declaration.name then [] else [item] := by
  induction declarations with
  | nil => rfl
  | cons first rest ih =>
    rw [List.cons_append, firstDeclarations, ih, List.filter_append, firstDeclarations,
      List.cons_append, List.map_cons]
    congr 2
    by_cases same : item.name = first.name
    · rw [if_pos (List.mem_cons.mpr (.inl same))]
      split <;> simp [same]
    · simp only [List.mem_cons, same, false_or]
      split
      · rfl
      · exact List.filter_cons_of_pos (decide_eq_true same)

/-- What is at an index of a list with one value more. -/
private theorem getElem?_concat_eq_some {α : Type} {values : List α} {value other : α}
    {index : Nat} :
    (values ++ [value])[index]? = some other ↔
      values[index]? = some other ∨ value = other ∧ index = values.length := by
  rcases Nat.lt_trichotomy index values.length with inside | rfl | outside
  · rw [List.getElem?_append_left inside]
    exact (or_iff_left fun last => Nat.ne_of_lt inside last.2).symm
  · simp
  · have past : (values ++ [value]).length ≤ index := by
      rw [List.length_append]
      exact outside
    rw [List.getElem?_eq_none past, List.getElem?_eq_none (Nat.le_of_lt outside)]
    simp [Nat.ne_of_gt outside]

/-- The number of a name is its index among the names of its storage. -/
theorem exists_declared?_iff (distinct : (declarations.map Declaration.name).Nodup)
    {storage : Storage} {index : Nat} :
    (∃ type, declared? declarations name = some ⟨type, storage, index⟩) ↔
      ((declarations.filter fun item => item.storage = storage).map Declaration.name)[index]? =
        some name := by
  -- From the end: a new name gets the last index, and the others keep theirs.
  induction declarations using List.reverseRecOn with
  | nil => simp [declared?]
  | append_singleton front item ih =>
    rw [List.map_append, List.map_singleton, List.nodup_append] at distinct
    have new (named : item.name = name) : declared? front name = none :=
      declared?_eq_none fun old =>
        distinct.2.2 _ old _ (List.mem_singleton.mpr named.symm) rfl
    have count : declaredCount storage front =
        ((front.filter fun item => item.storage = storage).map Declaration.name).length := by
      rw [List.length_map, declaredCount, List.countP_eq_length_filter]
    have last : (∃ type, declared? (front ++ [item]) name = some ⟨type, storage, index⟩) ↔
        (∃ type, declared? front name = some ⟨type, storage, index⟩) ∨
          item.storage = storage ∧ item.name = name ∧ index = declaredCount storage front := by
      rw [declared?_concat]
      by_cases named : item.name = name
      · rw [new named, if_pos named, Option.none_or]
        constructor
        · rintro ⟨type, same⟩
          obtain ⟨-, rfl, rfl⟩ := Entry.mk.inj (Option.some.inj same)
          exact .inr ⟨rfl, named, rfl⟩
        · rintro (⟨type, same⟩ | ⟨rfl, -, rfl⟩)
          · contradiction
          · exact ⟨item.type, rfl⟩
      · simp [named]
    rw [last, ih distinct.1, List.filter_append, List.map_append, count]
    by_cases own : item.storage = storage
    · rw [List.filter_singleton, decide_eq_true own, cond_true, List.map_singleton,
        getElem?_concat_eq_some, and_iff_right own]
    · simp [own]

end First

/-! ## Tables that are changed in place -/

namespace SymbolTable

/-- Declares a name of which the place is known. -/
def declareItem (table : SymbolTable) (call : Spanned Declaration) : Outcome SymbolTable :=
  table.declare ⟨call.node.name, call.span⟩ call.node.type call.node.storage

/-- Declares a name in a table that is changed in place, and returns what is known of it: the number
of names of the storage is raised before the name is bound. -/
def declareInPlace (call : Spanned Declaration) :
    EStateM (Spanned Fault) SymbolTable Entry := do
  let item := call.node
  let table ← get
  if table.entries.contains item.name then
    throw ⟨.duplicate table.scope item.name, call.span⟩
  else
    let entry : Entry := ⟨item.type, item.storage, table.counts.get item.storage⟩
    modify fun table => { table with counts := table.counts.increment item.storage }
    modify fun table => { table with entries := table.entries.insert item.name entry }
    return entry

/-- The table behind a declaration, whether it succeeds or not. -/
def attempt (table : SymbolTable) (call : Spanned Declaration) : SymbolTable :=
  match declareInPlace call table with
  | .ok _ final => final
  | .error _ final => final

/-- The table behind any declarations. -/
def attempts (table : SymbolTable) (calls : List (Spanned Declaration)) : SymbolTable :=
  calls.foldl attempt table

/-- Declaring in place has the outcome of declaring, and the table it leaves behind is the old one if
the declaration fails. -/
theorem declareInPlace_eq (table : SymbolTable) (call : Spanned Declaration) :
    declareInPlace call table =
      match table.declareItem call with
      | .ok final => .ok ⟨call.node.type, call.node.storage,
          table.counts.get call.node.storage⟩ final
      | .error fault => .error fault table := by
  unfold declareInPlace declareItem declare
  -- The table that is read first is the one the declaration starts from.
  change (if table.entries.contains call.node.name = true then _ else _ :
    EStateM (Spanned Fault) SymbolTable Entry) table = _
  by_cases bound : table.entries.contains call.node.name = true
  · rw [if_pos bound, if_pos bound]
    rfl
  · rw [if_neg bound, if_neg bound]
    rfl

section Attempts

variable {table : SymbolTable} {call : Spanned Declaration} {declarations : List Declaration}
variable {name : String} {entry : Entry}

/-- A declaration of a bound name fails. -/
theorem declareItem_bound (bound : table.get? call.node.name = some entry) :
    table.declareItem call = .error ⟨.duplicate table.scope call.node.name, call.span⟩ := by
  have there : table.entries.contains call.node.name = true := by
    rw [Std.HashMap.contains_eq_isSome_getElem?]
    exact Option.isSome_of_eq_some bound
  exact if_pos there

/-- A declaration of a new name succeeds. -/
theorem declareItem_new (new : table.get? call.node.name = none) :
    ∃ final, table.declareItem call = .ok final := by
  have absent : ¬ table.entries.contains call.node.name = true := by
    rw [Std.HashMap.contains_eq_isSome_getElem?, show table.entries[call.node.name]? = none from new]
    exact Bool.false_ne_true
  exact ⟨_, if_neg absent⟩

/-- A declaration fails exactly if its name is bound. -/
theorem declareItem_fails_iff :
    (∃ fault, table.declareItem call = .error fault) ↔
      ∃ entry, table.get? call.node.name = some entry := by
  constructor
  · rintro ⟨fault, failed⟩
    refine Option.ne_none_iff_exists'.mp fun new => ?_
    obtain ⟨final, made⟩ := declareItem_new new
    rw [made] at failed
    contradiction
  · rintro ⟨entry, bound⟩
    exact ⟨_, declareItem_bound bound⟩

/-- A declaration that fails changes nothing. -/
theorem of_declareInPlace_error {fault : Spanned Fault} {final : SymbolTable}
    (failed : declareInPlace call table = .error fault final) :
    table.declareItem call = .error fault ∧ final = table := by
  rw [declareInPlace_eq] at failed
  cases outcome : table.declareItem call with
  | ok other =>
    rw [outcome] at failed
    contradiction
  | error other =>
    rw [outcome] at failed
    obtain ⟨rfl, rfl⟩ := EStateM.Result.error.inj failed
    exact ⟨rfl, rfl⟩

/-- A table behind a declaration that fails. -/
theorem attempt_error {fault : Spanned Fault} (failed : table.declareItem call = .error fault) :
    table.attempt call = table := by
  rw [attempt, declareInPlace_eq, failed]

/-- A table behind a declaration that succeeds. -/
theorem attempt_ok {final : SymbolTable} (made : table.declareItem call = .ok final) :
    table.attempt call = final := by
  rw [attempt, declareInPlace_eq, made]

/-- A declaration that succeeds binds its name and leaves the others as they are. -/
theorem get?_of_declareItem {final : SymbolTable} (made : table.declareItem call = .ok final) :
    final.get? name =
      if call.node.name = name then
        some ⟨call.node.type, call.node.storage, table.counts.get call.node.storage⟩
      else table.get? name := by
  unfold declareItem declare at made
  split at made
  · contradiction
  · obtain rfl := Except.ok.inj made
    simp only [get?, Std.HashMap.getElem?_insert, beq_iff_eq]

/-- What a declaration returns is known of its name. -/
theorem of_declareInPlace_ok {final : SymbolTable}
    (done : declareInPlace call table = .ok entry final) :
    table.declareItem call = .ok final ∧ final.get? call.node.name = some entry := by
  rw [declareInPlace_eq] at done
  cases outcome : table.declareItem call with
  | error fault =>
    rw [outcome] at done
    contradiction
  | ok other =>
    rw [outcome] at done
    obtain ⟨rfl, rfl⟩ := EStateM.Result.ok.inj done
    exact ⟨rfl, by rw [get?_of_declareItem outcome, if_pos rfl]⟩

/-- What is known of a name is still known behind a declaration. -/
theorem get?_attempt (known : table.get? name = some entry) :
    (table.attempt call).get? name = some entry := by
  cases outcome : table.declareItem call with
  | error fault =>
    rw [attempt_error outcome]
    exact known
  | ok final =>
    have other : call.node.name ≠ name := by
      rintro rfl
      rw [declareItem_bound known] at outcome
      contradiction
    rw [attempt_ok outcome, get?_of_declareItem outcome, if_neg other]
    exact known

/-- What is known of a name is still known behind any declarations. -/
theorem get?_attempts (calls : List (Spanned Declaration)) (known : table.get? name = some entry) :
    (table.attempts calls).get? name = some entry := by
  induction calls generalizing table with
  | nil => exact known
  | cons call rest ih => exact ih (get?_attempt known)

/-- A table that knows the first declarations of names knows them behind one declaration more. -/
theorem Knows.attempt (knows : table.Knows (firstDeclarations declarations))
    (call : Spanned Declaration) :
    (table.attempt call).Knows (firstDeclarations (declarations ++ [call.node])) := by
  have bound (entry : Entry) (known : table.get? call.node.name = some entry) :
      call.node.name ∈ declarations.map Declaration.name := by
    rw [← mem_firstDeclarations]
    by_contra new
    rw [knows.get, declared?_eq_none new] at known
    contradiction
  rw [firstDeclarations_concat]
  cases outcome : table.declareItem call with
  | error fault =>
    obtain ⟨entry, known⟩ := declareItem_fails_iff.mp ⟨fault, outcome⟩
    rw [attempt_error outcome, if_pos (bound entry known), List.append_nil]
    exact knows
  | ok final =>
    have new := knows.new_of_declare outcome
    rw [mem_firstDeclarations] at new
    rw [attempt_ok outcome, if_neg new]
    exact knows.declare outcome

/-- Behind any declarations a table knows the first one of each name. -/
theorem knows_attempts (scope : String) (calls : List (Spanned Declaration)) :
    (({ scope } : SymbolTable).attempts calls).Knows
      (firstDeclarations (calls.map fun call => call.node)) := by
  induction calls using List.reverseRecOn with
  | nil => exact knows_nil scope
  | append_singleton front call ih =>
    rw [attempts, List.foldl_concat, List.map_append, List.map_singleton]
    exact ih.attempt call

end Attempts

/-! ## Numbering -/

/-- A name has a number among the names of a storage. -/
def HasNumber (table : SymbolTable) (name : String) (storage : Storage) (number : Nat) : Prop :=
  ∃ type, table.get? name = some ⟨type, storage, number⟩

/-- A table numbers the declared names of each storage, and its bindings last. -/
structure Numbered (table : SymbolTable) (declarations : List Declaration) : Prop where
  /-- The bound names are the declared ones. -/
  bound : ∀ name, (∃ entry, table.get? name = some entry) ↔
    name ∈ declarations.map Declaration.name
  /-- The numbers of a storage are those below the number of its names. -/
  dense : ∀ storage number, (∃ name, table.HasNumber name storage number) ↔
    number < table.counts.get storage
  /-- Each number of a storage belongs to one name. -/
  unique : ∀ storage number name other, table.HasNumber name storage number →
    table.HasNumber other storage number → name = other
  /-- The names of a storage are numbered in the order of their first declarations. -/
  ordered : ∀ storage number name, table.HasNumber name storage number ↔
    (namesOf storage declarations)[number]? = some name
  /-- There are no more names of a storage than declarations. -/
  small : ∀ storage, table.counts.get storage ≤ declarations.length
  /-- A declaration fails exactly if its name is bound, in whatever storage. -/
  fails : ∀ call, (∃ fault, table.declareItem call = .error fault) ↔
    ∃ entry, table.get? call.node.name = some entry
  /-- In place, a declaration that fails changes neither a binding nor the number of names of a
  storage. -/
  unchanged : ∀ call fault final, declareInPlace call table = .error fault final →
    table.declareItem call = .error fault ∧ final = table
  /-- In place, a declaration that succeeds returns what it has bound its name to. -/
  binds : ∀ call entry final, declareInPlace call table = .ok entry final →
    table.declareItem call = .ok final ∧ final.get? call.node.name = some entry
  /-- What is known of a bound name never changes. -/
  lasting : ∀ calls name entry, table.get? name = some entry →
    (table.attempts calls).get? name = some entry

section Numbered

variable {table : SymbolTable} {declarations : List Declaration} {storage : Storage} {name : String}

/-- The names of a storage are numbered in the order of their first declarations. -/
theorem Knows.hasNumber_iff (knows : table.Knows (firstDeclarations declarations)) {number : Nat} :
    table.HasNumber name storage number ↔
      (namesOf storage declarations)[number]? = some name := by
  rw [HasNumber, knows.get]
  exact exists_declared?_iff (nodup_firstDeclarations declarations)

/-- The number of names of a storage is that of its first declarations. -/
theorem Knows.count_eq (knows : table.Knows (firstDeclarations declarations)) (storage : Storage) :
    table.counts.get storage = (namesOf storage declarations).length := by
  rw [knows.count, namesOf, List.length_map, declaredCount, List.countP_eq_length_filter]

/-- There are no more first declarations than declarations. -/
theorem length_firstDeclarations_le (declarations : List Declaration) :
    (firstDeclarations declarations).length ≤ declarations.length := by
  induction declarations with
  | nil => exact Nat.le_refl _
  | cons first rest ih =>
    rw [firstDeclarations, List.length_cons, List.length_cons]
    exact Nat.succ_le_succ (Nat.le_trans (List.length_filter_le _ _) ih)

/-- A table that is declared in, with success or without, numbers its names. -/
theorem numbered_attempts (scope : String) (calls : List (Spanned Declaration)) :
    (({ scope } : SymbolTable).attempts calls).Numbered (calls.map fun call => call.node) := by
  have knows := knows_attempts scope calls
  constructor
  case bound =>
    intro name
    rw [knows.get, ← mem_firstDeclarations]
    constructor
    · rintro ⟨entry, known⟩
      by_contra new
      rw [declared?_eq_none new] at known
      contradiction
    · exact exists_declared?
  case dense =>
    intro storage number
    simp only [knows.hasNumber_iff, knows.count_eq]
    rw [← Option.ne_none_iff_exists', Ne, List.getElem?_eq_none_iff, Nat.not_le]
  case unique =>
    intro storage number name other own others
    rw [knows.hasNumber_iff] at own others
    exact Option.some.inj (own.symm.trans others)
  case ordered =>
    intro storage number name
    exact knows.hasNumber_iff
  case small =>
    intro storage
    rw [knows.count]
    exact Nat.le_trans List.countP_le_length (length_firstDeclarations_le _)
  case fails => exact fun call => declareItem_fails_iff
  case unchanged => exact fun call fault final => of_declareInPlace_error
  case binds => exact fun call entry final => of_declareInPlace_ok
  case lasting => exact fun calls name entry => get?_attempts calls

end Numbered

end SymbolTable

end JackToolchain.Jack
