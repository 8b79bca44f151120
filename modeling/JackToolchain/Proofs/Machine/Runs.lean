import JackToolchain.Machine.Cpu
import Mathlib.Tactic.Common

/-!
# Runs with a limit

A run asks in front of each instruction whether something stops it, and after the last one that it
may execute only whether the processor has halted. `runUntil_ran` says what a run does: it executes
one instruction after another as long as nothing stops it. From there two runs in a row are one run
with the limits added, if the second one may execute something (`runUntil_composes`): a run that may
execute nothing does not ask.

For the same reason a run that reports a used-up limit may have come to the end of the program or to
the breakpoint with its last instruction (`runUntil_eq_stepLimit_iff`).
-/
namespace JackToolchain.Machine.Cpu

/-! ## Transitions in a row -/

/-- The processor after so many transitions, if there are that many. -/
def follow? (transition : Cpu → Option Cpu) : Nat → Cpu → Option Cpu
  | 0, cpu => some cpu
  | count + 1, cpu => (transition cpu).bind (follow? transition count)

section Following

variable {transition : Cpu → Option Cpu} {cpu next : Cpu}

/-- The transitions after the first one start where it leads. -/
theorem follow?_of_transition (moved : transition cpu = some next) (count : Nat) :
    follow? transition (count + 1) cpu = follow? transition count next := by
  rw [follow?, moved, Option.bind_some]

/-- The transitions after some start where those lead. -/
theorem follow?_add (first second : Nat) (cpu : Cpu) :
    follow? transition (first + second) cpu =
      (follow? transition first cpu).bind (follow? transition second) := by
  induction first generalizing cpu with
  | zero => rw [Nat.zero_add, follow?, Option.bind_some]
  | succ first ih =>
    rw [Nat.add_right_comm, follow?, follow?, Option.bind_assoc]
    exact congrArg (Option.bind (transition cpu)) (funext ih)

/-- One more transition starts where some lead. -/
theorem follow?_succ {count : Nat} (reached : follow? transition count cpu = some next) :
    follow? transition (count + 1) cpu = transition next := by
  rw [follow?_add, reached, Option.bind_some, follow?]
  exact Option.bind_fun_some (transition next)

end Following

/-! ## What stops a run -/

/-- Why a run stops in front of the next instruction, if it does. -/
def stop? (breakpoint : Option Word) (cpu : Cpu) : Option StopReason :=
  if cpu.halted then some .halted
  else if cpu.atEnd then some .endOfProgram
  else if breakpoint = some cpu.pc then some .breakpoint
  else none

/-- Nothing keeps a run from executing the next instruction. -/
structure MayGoOn (breakpoint : Option Word) (cpu : Cpu) : Prop where
  /-- The processor has not halted. -/
  running : cpu.halted = false
  /-- There is an instruction at the program counter. -/
  inside : cpu.pc.toNat < cpu.rom.size
  /-- The breakpoint is somewhere else. -/
  elsewhere : breakpoint ≠ some cpu.pc

section Stopping

variable {breakpoint : Option Word} {cpu next : Cpu} {reason : StopReason}

/-- An executed instruction is counted. -/
theorem steps_execute (word : Word) : (cpu.execute word).steps = cpu.steps + 1 := by
  unfold execute
  split <;> rfl

/-- The processor executes the word that the program counter names, unless it has halted. -/
theorem step?_eq_some_iff : cpu.step? = some next ↔
    cpu.halted = false ∧ ∃ word, cpu.rom[cpu.pc.toNat]? = some word ∧ cpu.execute word = next := by
  unfold step?
  by_cases halted : cpu.halted = true
  · simp [halted]
  by_cases inside : cpu.pc.toNat < cpu.rom.size
  · simp [halted, inside]
  · simp [halted, inside]

/-- Every transition of the processor is an executed instruction. -/
theorem steps_of_step? (stepped : cpu.step? = some next) : next.steps = cpu.steps + 1 := by
  obtain ⟨-, word, -, rfl⟩ := step?_eq_some_iff.mp stepped
  exact steps_execute word

/-- Nothing stops a run exactly if it may go on. -/
theorem stop?_eq_none_iff : cpu.stop? breakpoint = none ↔ cpu.MayGoOn breakpoint := by
  have ended : cpu.atEnd = true ↔ ¬ cpu.pc.toNat < cpu.rom.size := by
    simp [atEnd]
  unfold stop?
  by_cases halted : cpu.halted = true
  · simp only [if_pos halted, reduceCtorEq, false_iff]
    exact fun free => absurd halted (by simp [free.running])
  by_cases outside : cpu.atEnd = true
  · simp only [if_neg halted, if_pos outside, reduceCtorEq, false_iff]
    exact fun free => ended.mp outside free.inside
  by_cases here : breakpoint = some cpu.pc
  · simp only [if_neg halted, if_neg outside, if_pos here, reduceCtorEq, false_iff]
    exact fun free => free.elsewhere here
  · rw [if_neg halted, if_neg outside, if_neg here]
    exact iff_of_true rfl ⟨by simpa using halted, not_not.mp (mt ended.mpr outside), here⟩

/-- Where nothing stops a run the processor has a next instruction, and the run goes on behind
it. -/
theorem exists_step_of_stop?_eq_none (free : cpu.stop? breakpoint = none) :
    ∃ next, cpu.step? = some next ∧
      ∀ limit, runUntil breakpoint (limit + 1) cpu = runUntil breakpoint limit next := by
  obtain ⟨running, inside, elsewhere⟩ := stop?_eq_none_iff.mp free
  have notHalted : ¬ cpu.halted = true := by simp [running]
  refine ⟨cpu.execute cpu.rom[cpu.pc.toNat], ?_, fun limit => ?_⟩
  · rw [step?, if_neg notHalted, dif_pos inside]
  · rw [runUntil, if_neg notHalted, dif_pos inside, if_neg elsewhere]

/-- A run that may execute something ends at once where something stops it. -/
theorem runUntil_of_stop? (stops : cpu.stop? breakpoint = some reason) (limit : Nat) :
    runUntil breakpoint (limit + 1) cpu = (reason, cpu) := by
  unfold stop? at stops
  rw [runUntil]
  by_cases halted : cpu.halted = true
  · rw [if_pos halted] at stops ⊢
    rw [Option.some.inj stops]
  rw [if_neg halted] at stops ⊢
  by_cases ended : cpu.atEnd = true
  · have outside : ¬ cpu.pc.toNat < cpu.rom.size := by
      simpa [atEnd] using ended
    rw [if_pos ended] at stops
    rw [dif_neg outside, Option.some.inj stops]
  have inside : cpu.pc.toNat < cpu.rom.size := by
    simpa [atEnd] using ended
  rw [if_neg ended] at stops
  rw [dif_pos inside]
  by_cases here : breakpoint = some cpu.pc
  · rw [if_pos here] at stops ⊢
    rw [Option.some.inj stops]
  · rw [if_neg here] at stops
    contradiction

end Stopping

/-! ## What a run does -/

/-- A run from a state with an outcome that executes so many instructions. -/
structure Ran (breakpoint : Option Word) (limit : Nat) (cpu : Cpu) (outcome : StopReason × Cpu)
    (executed : Nat) : Prop where
  /-- It executes no more instructions than it may. -/
  within : executed ≤ limit
  /-- It ends where these instructions lead. -/
  reached : follow? step? executed cpu = some outcome.2
  /-- The processor counts them. -/
  counted : outcome.2.steps = cpu.steps + executed
  /-- Nothing stops it in front of any of them. -/
  unstopped : ∀ earlier < executed, ∃ passed, follow? step? earlier cpu = some passed ∧
    passed.stop? breakpoint = none
  /-- If it may execute more, something stops it where it ends. -/
  stopped : executed < limit → outcome.2.stop? breakpoint = some outcome.1
  /-- If it may not, it tells whether the processor has halted. -/
  exhausted : executed = limit → outcome.1 = if outcome.2.halted then .halted else .stepLimit

variable {breakpoint : Option Word} {limit executed : Nat} {cpu next : Cpu}
  {outcome : StopReason × Cpu}

/-- A run with an instruction in front of it. -/
theorem Ran.cons (free : cpu.stop? breakpoint = none) (stepped : cpu.step? = some next)
    (rest : Ran breakpoint limit next outcome executed) :
    Ran breakpoint (limit + 1) cpu outcome (executed + 1) where
  within := Nat.succ_le_succ rest.within
  reached := by
    rw [follow?_of_transition stepped]
    exact rest.reached
  counted := by
    have first := steps_of_step? stepped
    have others := rest.counted
    omega
  unstopped := by
    intro earlier before
    cases earlier with
    | zero => exact ⟨cpu, rfl, free⟩
    | succ earlier =>
      obtain ⟨passed, reached, free⟩ := rest.unstopped earlier (Nat.lt_of_succ_lt_succ before)
      exact ⟨passed, (follow?_of_transition stepped earlier).trans reached, free⟩
  stopped := fun more => rest.stopped (Nat.lt_of_succ_lt_succ more)
  exhausted := fun all => rest.exhausted (Nat.succ.inj all)

/-- A run executes one instruction after another as long as nothing stops it. -/
theorem runUntil_ran (breakpoint : Option Word) (limit : Nat) (cpu : Cpu) :
    ∃ executed, Ran breakpoint limit cpu (runUntil breakpoint limit cpu) executed := by
  induction limit generalizing cpu with
  | zero =>
    refine ⟨0, Nat.le_refl 0, rfl, rfl, ?_, ?_, fun _ => rfl⟩
    · exact fun earlier before => absurd before (Nat.not_lt_zero earlier)
    · exact fun more => absurd more (Nat.lt_irrefl 0)
  | succ limit ih =>
    cases stops : cpu.stop? breakpoint with
    | some reason =>
      rw [runUntil_of_stop? stops]
      refine ⟨0, Nat.zero_le _, rfl, rfl, ?_, fun _ => stops, ?_⟩
      · exact fun earlier before => absurd before (Nat.not_lt_zero earlier)
      · exact fun none => absurd none.symm (Nat.succ_ne_zero limit)
    | none =>
      obtain ⟨next, stepped, goesOn⟩ := exists_step_of_stop?_eq_none stops
      obtain ⟨executed, ran⟩ := ih next
      rw [goesOn]
      exact ⟨executed + 1, ran.cons stops stepped⟩

/-- Two runs in a row are one run with the limits added, if the second one may execute an
instruction, and a run executes one instruction after another, no more than its limit, as long as
nothing stops it. -/
theorem runUntil_composes (breakpoint : Option Word) (cpu : Cpu) :
    (∀ first second, 1 ≤ second →
      runUntil breakpoint second (runUntil breakpoint first cpu).2 =
        runUntil breakpoint (first + second) cpu) ∧
    ∀ limit, ∃ executed, Ran breakpoint limit cpu (runUntil breakpoint limit cpu) executed := by
  refine ⟨fun first second more => ?_, fun limit => runUntil_ran breakpoint limit cpu⟩
  induction first generalizing cpu with
  | zero =>
    rw [Nat.zero_add]
    rfl
  | succ first ih =>
    cases stops : cpu.stop? breakpoint with
    | some reason =>
      -- The first run changes nothing, and the second one is stopped in the same way.
      obtain ⟨left, rfl⟩ := Nat.exists_eq_add_of_le' more
      rw [runUntil_of_stop? stops first]
      have again := runUntil_of_stop? stops left
      have whole := runUntil_of_stop? stops (first + (left + 1))
      rw [again, Nat.add_right_comm, whole]
    | none =>
      obtain ⟨next, -, goesOn⟩ := exists_step_of_stop?_eq_none stops
      rw [goesOn first, Nat.add_right_comm, goesOn (first + second)]
      exact ih next

/-- A run that halts with its last instruction is known to have halted by the run after it. -/
theorem idle_runUntil_composes :
    let start := boot #[0, 0xEA87]
    1 ≤ 1 ∧ (runUntil none 2 start).1 = .halted ∧
      runUntil none 1 (runUntil none 2 start).2 = runUntil none (2 + 1) start :=
  ⟨Nat.le_refl 1, rfl, (runUntil_composes none (boot #[0, 0xEA87])).1 2 1 (Nat.le_refl 1)⟩

/-! ## Used-up limits -/

/-- What stops a run of a processor that has not halted is the end of the program or the
breakpoint. -/
theorem stop?_of_not_mayGoOn (running : cpu.halted = false)
    (stuck : ¬ cpu.MayGoOn breakpoint) :
    cpu.stop? breakpoint = some (if cpu.atEnd then .endOfProgram else .breakpoint) := by
  have stops := mt stop?_eq_none_iff.mp stuck
  unfold stop? at stops ⊢
  rw [if_neg (by simp [running])] at stops ⊢
  by_cases ended : cpu.atEnd = true
  · rw [if_pos ended, if_pos ended]
  · rw [if_neg ended] at stops ⊢
    by_cases here : breakpoint = some cpu.pc
    · rw [if_pos here, if_neg ended]
    · exact absurd (if_neg here) stops

/-- Nothing stops a run in the name of its limit. -/
theorem stop?_ne_stepLimit : cpu.stop? breakpoint ≠ some .stepLimit := by
  unfold stop?
  split
  · decide
  split
  · decide
  split <;> decide

/-- With a larger limit, a run goes on from where it has used up a smaller one. -/
theorem runUntil_add (usedUp : (runUntil breakpoint limit cpu).1 = .stepLimit) (more : Nat) :
    runUntil breakpoint (limit + more) cpu =
      runUntil breakpoint more (runUntil breakpoint limit cpu).2 := by
  induction limit generalizing cpu with
  | zero => rw [Nat.zero_add, runUntil]
  | succ limit ih =>
    cases stops : cpu.stop? breakpoint with
    | some reason =>
      rw [runUntil_of_stop? stops] at usedUp
      obtain rfl : reason = .stepLimit := usedUp
      exact absurd stops stop?_ne_stepLimit
    | none =>
      obtain ⟨next, -, goesOn⟩ := exists_step_of_stop?_eq_none stops
      rw [goesOn] at usedUp ⊢
      rw [Nat.add_right_comm, goesOn]
      exact ih usedUp

/-- A run has used up its limit in a state. -/
structure UsedUp (breakpoint : Option Word) (limit : Nat) (cpu final : Cpu) : Prop where
  /-- It has executed as many instructions as it may. -/
  executed : final.steps = cpu.steps + limit
  /-- The processor has not halted. -/
  running : final.halted = false
  /-- In front of each of the instructions the run could go on. -/
  passed : ∀ earlier < limit, ∃ passed, follow? step? earlier cpu = some passed ∧
    passed.MayGoOn breakpoint
  /-- Behind the last one it could go on exactly if it executes one more when it may. -/
  goesOn : final.MayGoOn breakpoint ↔
    (runUntil breakpoint (limit + 1) cpu).2.steps = cpu.steps + (limit + 1)
  /-- If it could not, then every larger limit shows that it is at the end of the program or at the
  breakpoint. -/
  ends : ¬ final.MayGoOn breakpoint → ∀ more, runUntil breakpoint (limit + (more + 1)) cpu =
    (if final.atEnd then .endOfProgram else .breakpoint, final)

/-- A run reports a used-up limit exactly if it has executed as many instructions as it may and the
processor has not halted. The program could go on in front of each of them, but behind the last one
it may be at its end or at the breakpoint. -/
theorem runUntil_eq_stepLimit_iff (breakpoint : Option Word) (limit : Nat) (cpu : Cpu) :
    (runUntil breakpoint limit cpu).1 = .stepLimit ↔
      UsedUp breakpoint limit cpu (runUntil breakpoint limit cpu).2 := by
  obtain ⟨executed, ran⟩ := runUntil_ran breakpoint limit cpu
  constructor
  · intro usedUp
    have all : executed = limit := by
      by_contra fewer
      have stops := ran.stopped (Nat.lt_of_le_of_ne ran.within fewer)
      exact absurd (usedUp ▸ stops) stop?_ne_stepLimit
    subst all
    have running : (runUntil breakpoint executed cpu).2.halted = false := by
      have reason := ran.exhausted rfl
      rw [usedUp] at reason
      split at reason
      · contradiction
      · rename_i running
        simpa using running
    have longer := runUntil_add usedUp
    refine ⟨ran.counted, running, fun earlier before => ?_, ?_, fun stuck more => ?_⟩
    · obtain ⟨passed, reached, free⟩ := ran.unstopped earlier before
      exact ⟨passed, reached, stop?_eq_none_iff.mp free⟩
    · rw [longer]
      by_cases free : (runUntil breakpoint executed cpu).2.MayGoOn breakpoint
      · obtain ⟨next, stepped, goesOn⟩ :=
          exists_step_of_stop?_eq_none (stop?_eq_none_iff.mpr free)
        rw [goesOn, runUntil, steps_of_step? stepped, ran.counted]
        exact iff_of_true free (Nat.add_assoc _ _ _)
      · rw [runUntil_of_stop? (stop?_of_not_mayGoOn running free), ran.counted]
        exact iff_of_false free (by omega)
    · rw [longer, runUntil_of_stop? (stop?_of_not_mayGoOn running stuck)]
  · intro usedUp
    have all : executed = limit := by
      have counted := ran.counted
      have own := usedUp.executed
      omega
    rw [ran.exhausted all, if_neg (by simp [usedUp.running])]

/-- A run that may execute one instruction of a program of one reports a used-up limit, although
the program is at its end; so does a run that may execute the instruction in front of its
breakpoint. -/
theorem stepLimit_not_mayGoOn :
    ((runUntil none 1 (boot #[1])).1 = .stepLimit ∧
        ¬ (runUntil none 1 (boot #[1])).2.MayGoOn none) ∧
      (runUntil (some 1) 1 (boot #[1, 2])).1 = .stepLimit ∧
        ¬ (runUntil (some 1) 1 (boot #[1, 2])).2.MayGoOn (some 1) := by
  refine ⟨⟨rfl, fun free => ?_⟩, rfl, fun free => free.elsewhere rfl⟩
  exact absurd free.inside (by decide)

end JackToolchain.Machine.Cpu
