import JackToolchain.Vm.Location

/-!
# Where indices live

`LivesAt` lists the places of the indices of all segments, one case for each kind of place. An index
that is located lives in one of them, so what holds of all places is proved place by place.
-/
namespace JackToolchain.Vm

/-- The segment that a pointer holds the base of. -/
def Pointer.segment : Pointer → Segment
  | .lcl => .local
  | .arg => .argument
  | .this => .this
  | .that => .that

/-- The index of the segment lives in the place, for commands of the unit. -/
inductive LivesAt (layout : Layout) (unit : String) : Segment → Nat → Location → Prop where
  | constant {index : Nat} (small : index ≤ layout.maxConstant) :
    LivesAt layout unit .constant index (.constant index)
  | above (base : Pointer) {index : Nat} (small : index ≤ layout.maxConstant) :
    LivesAt layout unit base.segment index (.indirect base index)
  | static (index : Nat) : LivesAt layout unit .static index (.named (staticSymbol unit index))
  | temp {index : Nat} (inside : index < layout.tempSize) :
    LivesAt layout unit .temp index (.cell (layout.tempCell index))
  | this : LivesAt layout unit .pointer 0 (.named Pointer.this.symbol)
  | that : LivesAt layout unit .pointer 1 (.named Pointer.that.symbol)

/-- A located index lives where it is located. -/
theorem livesAt_of_locate? {layout : Layout} {unit : String} {segment : Segment} {index : Nat}
    {location : Location} (located : locate? layout unit segment index = some location) :
    LivesAt layout unit segment index location := by
  have bounded {place : Location} (own : (if index ≤ layout.maxConstant then some place else none) =
      some location) : index ≤ layout.maxConstant ∧ place = location := by
    obtain ⟨small, same⟩ := Option.ite_none_right_eq_some.mp own
    exact ⟨small, Option.some.inj same⟩
  cases segment with
  | constant =>
    obtain ⟨small, rfl⟩ := bounded located
    exact .constant small
  | «local» =>
    obtain ⟨small, rfl⟩ := bounded located
    exact .above .lcl small
  | argument =>
    obtain ⟨small, rfl⟩ := bounded located
    exact .above .arg small
  | this =>
    obtain ⟨small, rfl⟩ := bounded located
    exact .above .this small
  | that =>
    obtain ⟨small, rfl⟩ := bounded located
    exact .above .that small
  | static =>
    obtain rfl := Option.some.inj located
    exact .static index
  | temp =>
    obtain ⟨inside, same⟩ := Option.ite_none_right_eq_some.mp located
    obtain rfl := Option.some.inj same
    exact .temp inside
  | pointer =>
    simp only [locate?] at located
    split at located
    · obtain rfl := Option.some.inj located
      exact .this
    · obtain rfl := Option.some.inj located
      exact .that
    · contradiction

end JackToolchain.Vm
