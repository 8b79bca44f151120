import JackToolchain.Proofs.Machine.Execution
import Mathlib.Combinatorics.Pigeonhole

/-!
# Halts that are loops

The processor takes a jump to the instruction in front of the jump for the end of a program, which
is meant to be the loop `(L) @L 0;JMP`. It looks at the jump and at the distance only. Whether the
processor, if it went on, would really stay there and change nothing (`Idles`) is decided by the next
six instructions: with memory and data register at rest, the address register has five values at
most at the two places, and a state that comes back comes back for ever (`idles_iff_of_halted`). A
program whose loop counts is halted all the same (`counting_halted`).
-/
namespace JackToolchain.Machine

open Assembly (encodeCompute?)

namespace Cpu

/-! ## Going on -/

/-- A state without the mark of a halt. -/
def awake (cpu : Cpu) : Cpu := { cpu with halted := false }

/-- The processor after the next instruction, also if it has halted. -/
def goOn? (cpu : Cpu) : Option Cpu := cpu.awake.step?

/-- Another state has the same memory and data register, and is at the same place or at the one
behind it. -/
structure Quiet (cpu later : Cpu) : Prop where
  /-- The memory is the same. -/
  ram : later.ram = cpu.ram
  /-- The data register is the same. -/
  d : later.d = cpu.d
  /-- The program counter is at one of the two places. -/
  pc : later.pc = cpu.pc ∨ later.pc = cpu.pc + 1

/-- The processor would change nothing and stay at two places for so many instructions. -/
def IdlesFor (limit : Nat) (cpu : Cpu) : Prop :=
  ∀ count ≤ limit, ∃ later, follow? goOn? count cpu = some later ∧ cpu.Quiet later

/-- The processor would change nothing and stay at two places for ever. -/
def Idles (cpu : Cpu) : Prop :=
  ∀ count, ∃ later, follow? goOn? count cpu = some later ∧ cpu.Quiet later

/-- A state apart from the count of instructions and the mark of a halt. -/
def settled (cpu : Cpu) : Cpu := { cpu with steps := 0, halted := false }

section GoingOn

variable {cpu next left right : Cpu}

/-- Going on executes the word that the program counter names. -/
theorem goOn?_eq : cpu.goOn? = cpu.rom[cpu.pc.toNat]?.map cpu.awake.execute := by
  apply Option.ext
  intro next
  rw [goOn?, step?_eq_some_iff, Option.map_eq_some_iff]
  exact ⟨fun stepped => stepped.2, fun found => ⟨rfl, found⟩⟩

/-- An instruction looks neither at the count nor at the mark of a halt. -/
theorem settled_execute (word : Word) :
    (cpu.awake.execute word).settled = (cpu.settled.execute word).settled := by
  unfold execute
  rw [settled, settled]
  split <;> rfl

/-- States that differ in the count and the mark of a halt only go on to such states. -/
theorem goOn?_congr (same : left.settled = right.settled) :
    left.goOn?.map settled = right.goOn?.map settled := by
  have rom : left.rom = right.rom := congrArg (fun state => state.rom) same
  have pc : left.pc = right.pc := congrArg (fun state => state.pc) same
  have executes : settled ∘ left.awake.execute = settled ∘ right.awake.execute := by
    funext word
    rw [Function.comp, Function.comp, settled_execute, settled_execute, same]
  rw [goOn?_eq, goOn?_eq, Option.map_map, Option.map_map, rom, pc, executes]

/-- Such states go on to such states for any number of instructions. -/
theorem follow?_congr (same : left.settled = right.settled) (count : Nat) :
    (follow? goOn? count left).map settled = (follow? goOn? count right).map settled := by
  induction count generalizing left right with
  | zero => exact congrArg some same
  | succ count ih =>
    have first := goOn?_congr same
    rw [follow?, follow?]
    cases onLeft : left.goOn? with
    | none =>
      rw [onLeft, Option.map_none, eq_comm, Option.map_eq_none_iff] at first
      rw [first]
    | some left' =>
      rw [onLeft, Option.map_some, eq_comm, Option.map_eq_some_iff] at first
      obtain ⟨right', onRight, same'⟩ := first
      rw [onRight]
      exact ih same'.symm

/-- The program does not change. -/
theorem rom_execute (word : Word) : (cpu.execute word).rom = cpu.rom := by
  unfold execute
  split <;> rfl

/-- The program does not change for any number of instructions. -/
theorem rom_of_follow? {count : Nat} (went : follow? goOn? count cpu = some next) :
    next.rom = cpu.rom := by
  induction count generalizing cpu with
  | zero => exact congrArg Cpu.rom (Option.some.inj went).symm
  | succ count ih =>
    rw [follow?, Option.bind_eq_some_iff] at went
    obtain ⟨middle, first, others⟩ := went
    rw [goOn?_eq, Option.map_eq_some_iff] at first
    obtain ⟨word, -, rfl⟩ := first
    exact (ih others).trans (rom_execute word)

/-- A state that comes back while the processor idles comes back for ever. -/
theorem idles_of_return {first second : Nat} (before : first < second)
    (idle : cpu.IdlesFor second) (atFirst : follow? goOn? first cpu = some left)
    (atSecond : follow? goOn? second cpu = some right) (same : left.settled = right.settled) :
    cpu.Idles := by
  intro count
  induction count using Nat.strong_induction_on with
  | _ count ih =>
    by_cases early : count ≤ second
    · exact idle count early
    -- The same instructions lead from the two visits to this count and to an earlier one.
    have fromSecond : follow? goOn? count cpu = follow? goOn? (count - second) right := by
      rw [show count = second + (count - second) by omega, follow?_add, atSecond]
      rw [show second + (count - second) - second = count - second by omega]
      rfl
    have fromFirst : follow? goOn? (count - (second - first)) cpu =
        follow? goOn? (count - second) left := by
      rw [show count - (second - first) = first + (count - second) by omega, follow?_add, atFirst]
      rfl
    obtain ⟨earlier, reached, quiet⟩ := ih (count - (second - first)) (by omega)
    have matching := follow?_congr same (count - second)
    rw [← fromFirst, ← fromSecond, reached, Option.map_some, eq_comm,
      Option.map_eq_some_iff] at matching
    obtain ⟨later, found, alike⟩ := matching
    refine ⟨later, found, ?_, ?_, ?_⟩
    · exact (congrArg (fun state => state.ram) alike).trans quiet.ram
    · exact (congrArg (fun state => state.d) alike).trans quiet.d
    · rw [show later.pc = earlier.pc from congrArg (fun state => state.pc) alike]
      exact quiet.pc

end GoingOn

/-! ## Jumps that halt -/

/-- Whether a word is a compute instruction that jumps in any case. -/
def alwaysJumps (word : Word) : Bool := word &&& 0x8000 != 0 && word &&& 0b111 == 0b111

section Jumping

variable {cpu next : Cpu} {word : Word}

/-- All three jump bits together accept every result. -/
theorem jumps_all (out : Word) : jumps 0b111 out = true :=
  (@jumps_encodeJump "JMP" 0b111 rfl).2.1 out

/-- An instruction goes on at the address register or behind itself. -/
theorem pc_of_goOn? (went : cpu.goOn? = some next) : next.pc = cpu.a ∨ next.pc = cpu.pc + 1 := by
  rw [goOn?_eq, Option.map_eq_some_iff] at went
  obtain ⟨word, -, rfl⟩ := went
  unfold execute
  split
  · exact .inr rfl
  · exact ite_eq_or_eq _ cpu.a (cpu.pc + 1)

/-- What an instruction leaves in the address register is not a matter of its place. -/
theorem a_execute_congr {left right : Cpu} (ram : left.ram = right.ram) (d : left.d = right.d)
    (a : left.a = right.a) (word : Word) : (left.execute word).a = (right.execute word).a := by
  obtain ⟨rom, ram', a', d', pc, steps, halted⟩ := left
  obtain rfl := ram
  obtain rfl := d
  obtain rfl := a
  unfold execute
  split <;> rfl

/-- An instruction that jumps in any case goes on at the address register. -/
theorem pc_execute_of_alwaysJumps (always : alwaysJumps word = true) (cpu : Cpu) :
    (cpu.execute word).pc = cpu.a := by
  rw [alwaysJumps, Bool.and_eq_true, beq_iff_eq, bne_iff_ne] at always
  rw [execute, if_neg (by simpa using always.1), executeCompute]
  simp only [always.2, jumps_all, ↓reduceIte]

/-- Going on with such an instruction does too. -/
theorem pc_of_goOn?_of_alwaysJumps (always : alwaysJumps word = true)
    (fetched : cpu.rom[cpu.pc.toNat]? = some word) (went : cpu.goOn? = some next) :
    next.pc = cpu.a := by
  rw [goOn?_eq, fetched, Option.map_some] at went
  rw [← Option.some.inj went]
  exact pc_execute_of_alwaysJumps always cpu.awake

/-- The processor halts exactly with a jump in any case to the instruction in front of the jump. -/
theorem halted_execute_iff (running : cpu.halted = false) :
    (cpu.execute word).halted = true ↔ alwaysJumps word = true ∧ cpu.a + 1 = cpu.pc := by
  rw [alwaysJumps, Bool.and_eq_true, bne_iff_ne, beq_iff_eq]
  by_cases loads : word &&& 0x8000 = 0
  · rw [execute, if_pos (by simpa using loads)]
    simp [running, loads]
  · rw [execute, if_neg (by simpa using loads), executeCompute]
    by_cases always : word &&& 0b111 = 0b111
    · simp [running, loads, always, jumps_all]
    · simp [running, loads, always]

end Jumping

/-! ## Six instructions -/

section Deciding

variable {cpu : Cpu}

/-- The places and addresses of a processor that idles in front of a jump: what it starts with, what
each of the two instructions makes of the address of the first place, and the two addresses that
the jump can go to. -/
def idleSpots (cpu : Cpu) (first jump : Word) : Finset (Option (Word × Word)) :=
  {some (cpu.pc, cpu.a), some (cpu.pc, (execute { cpu with a := cpu.pc } jump).a),
    some (cpu.pc, (execute { cpu with a := cpu.pc } first).a), some (cpu.pc + 1, cpu.pc),
    some (cpu.pc + 1, cpu.pc + 1)}

/-- The place and the address of the state after so many instructions. -/
def spot (cpu : Cpu) (count : Nat) : Option (Word × Word) :=
  (follow? goOn? count cpu).map fun later => (later.pc, later.a)

/-- What an instruction makes of the address while the processor idles. -/
theorem a_of_quiet {now next : Cpu} {word : Word} (quiet : cpu.Quiet now)
    (fetched : now.rom[now.pc.toNat]? = some word) (went : now.goOn? = some next) :
    next.a = (execute { cpu with a := now.a } word).a := by
  rw [goOn?_eq, fetched, Option.map_some] at went
  rw [← Option.some.inj went]
  exact @a_execute_congr now.awake { cpu with a := now.a } quiet.ram quiet.d rfl word

section InFront

variable {first jump : Word} (firstWord : cpu.rom[cpu.pc.toNat]? = some first)
variable (jumpWord : cpu.rom[(cpu.pc + 1).toNat]? = some jump) (always : alwaysJumps jump = true)
include firstWord jumpWord always

/-- An instruction that leads to the first place has jumped there, so it started with the address of
that place. -/
theorem spot_mem_of_back {last now : Cpu} (quiet : cpu.Quiet last) (rom : last.rom = cpu.rom)
    (went : last.goOn? = some now) (back : now.pc = cpu.pc) :
    some (now.pc, now.a) ∈ cpu.idleSpots first jump := by
  have apart : cpu.pc + 1 ≠ cpu.pc := by grind
  rcases quiet.pc with stayed | returned
  · have fetched : last.rom[last.pc.toNat]? = some first := by
      rw [rom, stayed, firstWord]
    have target : last.a = cpu.pc := by
      rcases pc_of_goOn? went with jumped | fell
      · exact jumped.symm.trans back
      · rw [back, stayed] at fell
        exact absurd fell.symm apart
    rw [back, a_of_quiet quiet fetched went, target, idleSpots]
    simp
  · have fetched : last.rom[last.pc.toNat]? = some jump := by
      rw [rom, returned, jumpWord]
    have target : last.a = cpu.pc :=
      (pc_of_goOn?_of_alwaysJumps always fetched went).symm.trans back
    rw [back, a_of_quiet quiet fetched went, target, idleSpots]
    simp

/-- As long as the processor idles in front of a jump, it is at one of five spots. -/
theorem spot_mem {limit count : Nat} (idle : cpu.IdlesFor (limit + 1)) (early : count ≤ limit) :
    cpu.spot count ∈ cpu.idleSpots first jump := by
  obtain ⟨now, reachedNow, quietNow⟩ := idle count (by omega)
  obtain ⟨next, reachedNext, quietNext⟩ := idle (count + 1) (by omega)
  rw [follow?_succ reachedNow] at reachedNext
  rw [spot, reachedNow, Option.map_some]
  rcases quietNow.pc with here | behind
  · cases count with
    | zero =>
      obtain rfl := Option.some.inj reachedNow
      rw [idleSpots]
      simp
    | succ count =>
      obtain ⟨last, reachedLast, quietLast⟩ := idle count (by omega)
      rw [follow?_succ reachedLast] at reachedNow
      exact spot_mem_of_back firstWord jumpWord always quietLast (rom_of_follow? reachedLast)
        reachedNow here
  · -- The jump stays at the two places, so its address is one of them.
    have fetched : now.rom[now.pc.toNat]? = some jump := by
      rw [rom_of_follow? reachedNow, behind, jumpWord]
    have jumped := pc_of_goOn?_of_alwaysJumps always fetched reachedNext
    rw [behind, ← jumped, idleSpots]
    rcases quietNext.pc with start | again
    · rw [start]
      simp
    · rw [again]
      simp

end InFront

/-- A spot that comes back while the processor idles is a state that comes back. -/
theorem idles_of_spot_eq {earlier later : Nat} (idle : cpu.IdlesFor later) (before : earlier < later)
    (same : cpu.spot earlier = cpu.spot later) : cpu.Idles := by
  obtain ⟨start, atStart, quietStart⟩ := idle earlier (by omega)
  obtain ⟨back, atBack, quietBack⟩ := idle later (Nat.le_refl later)
  rw [spot, spot, atStart, atBack, Option.map_some, Option.map_some, Option.some.injEq,
    Prod.mk.injEq] at same
  have rom := (rom_of_follow? atStart).trans (rom_of_follow? atBack).symm
  have ram := quietStart.ram.trans quietBack.ram.symm
  have d := quietStart.d.trans quietBack.d.symm
  have settled : start.settled = back.settled := by
    rw [Cpu.settled, Cpu.settled, rom, ram, d, same.1, same.2]
  exact idles_of_return before idle atStart atBack settled

/-- Two of the first six spots of a processor that idles in front of a jump are the same. -/
theorem idles_of_idlesFor {jump : Word} (idle : cpu.IdlesFor 6)
    (jumpWord : cpu.rom[(cpu.pc + 1).toNat]? = some jump) (always : alwaysJumps jump = true) :
    cpu.Idles := by
  obtain ⟨second, went, -⟩ := idle 1 (by decide)
  rw [follow?_succ rfl, goOn?_eq, Option.map_eq_some_iff] at went
  obtain ⟨first, firstWord, -⟩ := went
  have inside : ∀ count ∈ Finset.range 6, cpu.spot count ∈ cpu.idleSpots first jump :=
    fun count early =>
      spot_mem firstWord jumpWord always idle (Nat.le_of_lt_succ (Finset.mem_range.mp early))
  have few : (cpu.idleSpots first jump).card < (Finset.range 6).card := by
    rw [Finset.card_range]
    exact Nat.lt_succ_of_le Finset.card_le_five
  obtain ⟨left, leftEarly, right, rightEarly, apart, same⟩ :=
    Finset.exists_ne_map_eq_of_card_lt_of_maps_to few inside
  rw [Finset.mem_range] at leftEarly rightEarly
  have within {limit : Nat} (early : limit < 6) : cpu.IdlesFor limit :=
    fun count few => idle count (by omega)
  rcases Nat.lt_or_gt_of_ne apart with before | before
  · exact idles_of_spot_eq (within rightEarly) before same
  · exact idles_of_spot_eq (within leftEarly) before same.symm

end Deciding

/-! ## The loop at the end of a program -/

/-- A processor at the start of the loop `(L) @L 0;JMP` idles. -/
theorem idles_of_loop {cpu : Cpu} {address : String → Word} {name : String}
    (loop : Holds address cpu.rom cpu.pc [.label name, .symbol name, .jump "0" "JMP"]) :
    cpu.Idles := by
  obtain ⟨own, held⟩ := loop
  obtain ⟨load, loadWord, loads⟩ := held.fetch rfl
  obtain ⟨jump, jumpWord, jumps⟩ := held.2.fetch rfl
  obtain ⟨small, same⟩ := Option.ite_none_right_eq_some.mp loads
  obtain rfl : cpu.pc = load := own.symm.trans (Option.some.inj same)
  rw [own] at small
  -- At the jump the address register holds the start of the loop.
  have stays (count : Nat) : ∃ later, follow? goOn? count cpu = some later ∧
      later.ram = cpu.ram ∧ later.d = cpu.d ∧
        (later.pc = cpu.pc ∨ later.pc = cpu.pc + 1 ∧ later.a = cpu.pc) := by
    induction count with
    | zero => exact ⟨cpu, rfl, rfl, rfl, .inl rfl⟩
    | succ count ih =>
      obtain ⟨now, reached, ram, d, places⟩ := ih
      rw [follow?_succ reached, goOn?_eq, rom_of_follow? reached]
      rcases places with start | ⟨behind, target⟩
      · rw [start, loadWord, Option.map_some, execute_load small]
        exact ⟨_, rfl, ram, d, .inr ⟨congrArg (· + 1) start, rfl⟩⟩
      · rw [behind, jumpWord, Option.map_some, execute_encodeCompute jumps]
        exact ⟨_, rfl, ram, d, .inl target⟩
  intro count
  obtain ⟨later, reached, ram, d, places⟩ := stays count
  exact ⟨later, reached, ram, d, places.imp_right fun jump => jump.1⟩

/-- The processor halts with a jump to the instruction in front of the jump, and that is an end
exactly if the six instructions that would follow keep memory and data register and stay at the two
places. So it is at the loop `(L) @L 0;JMP`. -/
theorem idles_iff_of_halted {cpu next : Cpu} (stepped : cpu.step? = some next)
    (halted : next.halted = true) :
    cpu.a = next.pc ∧ cpu.pc = next.pc + 1 ∧ (next.Idles ↔ next.IdlesFor 6) ∧
      ∀ address name, Holds address cpu.rom next.pc
        [.label name, .symbol name, .jump "0" "JMP"] → next.Idles := by
  obtain ⟨running, jump, fetched, rfl⟩ := step?_eq_some_iff.mp stepped
  obtain ⟨always, inFront⟩ := (halted_execute_iff running).mp halted
  have target := pc_execute_of_alwaysJumps always cpu
  have rom : (cpu.execute jump).rom = cpu.rom := rom_execute jump
  have jumpWord : (cpu.execute jump).rom[((cpu.execute jump).pc + 1).toNat]? = some jump := by
    rw [rom, target, inFront, fetched]
  refine ⟨target.symm, ?_, ⟨fun idle count _ => idle count, fun idle => ?_⟩, ?_⟩
  · rw [target, inFront]
  · exact idles_of_idlesFor idle jumpWord always
  · intro address name loop
    rw [← rom] at loop
    exact idles_of_loop loop

/-- The words of `@0` and `0;JMP`. -/
def endingRom : Array Word := #[0, 0xEA87]

/-- The loop that does nothing is halted at its jump, and is an end. -/
theorem ending_idles : ∃ cpu next, Reaches (boot endingRom) cpu ∧ cpu.step? = some next ∧
    next.halted = true ∧ next.Idles := by
  have loop : Holds (fun _ => 0) endingRom 0 [.label "END", .symbol "END", .jump "0" "JMP"] := by
    decide
  have stepped : step? { boot endingRom with pc := 1, steps := 1 } =
      some { boot endingRom with steps := 2, halted := true } := rfl
  refine ⟨{ boot endingRom with pc := 1, steps := 1 }, _, .single rfl, stepped, rfl, ?_⟩
  exact (idles_iff_of_halted stepped rfl).2.2.2 _ _ loop

/-- The words of `@1`, `D=D+1` and `0;JMP`. -/
def countingRom : Array Word := #[1, 0xE7D0, 0xEA87]

/-- A loop that counts in the data register is halted, though it would count on. -/
theorem counting_halted : ∃ cpu next, Reaches (boot countingRom) cpu ∧ cpu.step? = some next ∧
    next.halted = true ∧ ¬ next.Idles := by
  refine ⟨{ boot countingRom with a := 1, d := 1, pc := 2, steps := 2 }, _, ?_, rfl, rfl, ?_⟩
  · have first : (boot countingRom).step? =
        some { boot countingRom with a := 1, pc := 1, steps := 1 } := rfl
    exact .tail (.single first) rfl
  · intro idles
    obtain ⟨later, went, quiet⟩ := idles 1
    obtain rfl := Option.some.inj went
    exact absurd quiet.d (by decide)

end Cpu

end JackToolchain.Machine
