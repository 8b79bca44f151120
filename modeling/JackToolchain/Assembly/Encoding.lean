import JackToolchain.Machine.Cpu

/-!
# Encoding of compute instructions

A compute instruction is the word `111a cccccc ddd jjj`. The six `c` bits choose the computation,
`a` says whether it takes memory in place of the address register, the three `d` bits name the
destinations and the three `j` bits the jump.
-/
namespace JackToolchain.Assembly

open Machine (Word)

/-- The computations over the address register, with their `c` bits. Commuted sums and bitwise
operations have a second spelling. -/
def computations : List (String × Word) :=
  [("0", 0b101010), ("1", 0b111111), ("-1", 0b111010),
    ("D", 0b001100), ("A", 0b110000), ("!D", 0b001101), ("!A", 0b110001),
    ("-D", 0b001111), ("-A", 0b110011),
    ("D+1", 0b011111), ("1+D", 0b011111), ("A+1", 0b110111), ("1+A", 0b110111),
    ("D-1", 0b001110), ("A-1", 0b110010),
    ("D+A", 0b000010), ("A+D", 0b000010), ("D-A", 0b010011), ("A-D", 0b000111),
    ("D&A", 0b000000), ("A&D", 0b000000), ("D|A", 0b010101), ("A|D", 0b010101)]

/-- The seven bits `a cccccc` of a computation. A computation over memory is written with `M`
where the one over the address register has `A`; one that has both is none. -/
def encodeComp? (comp : String) : Option Word :=
  let text := comp.toList
  if 'M' ∈ text then
    if 'A' ∈ text then none
    else
      let overAddress := text.map fun c => if c = 'M' then 'A' else c
      (computations.lookup (String.ofList overAddress)).map fun bits => 0b1000000 ||| bits
  else computations.lookup comp

/-- The bit of one destination. -/
def encodeRegister? : Char → Option Word
  | 'A' => some 0b100
  | 'D' => some 0b010
  | 'M' => some 0b001
  | _ => none

/-- Adds the bits of destinations to `bits`; none may be named twice. -/
def encodeDestInto (bits : Word) : List Char → Option Word
  | [] => some bits
  | c :: rest => do
    let bit ← encodeRegister? c
    if bits &&& bit = 0 then encodeDestInto (bits ||| bit) rest else none

/-- The three bits of the destinations, which may be named in any order. -/
def encodeDest? (dest : String) : Option Word := encodeDestInto 0 dest.toList

/-- The three bits of a jump; an empty text is no jump. -/
def encodeJump? (jump : String) : Option Word :=
  [("", 0b000), ("JGT", 0b001), ("JEQ", 0b010), ("JGE", 0b011),
    ("JLT", 0b100), ("JNE", 0b101), ("JLE", 0b110), ("JMP", 0b111)].lookup jump

/-- The word of a compute instruction, when its three fields can be encoded. -/
def encodeCompute? (dest comp jump : String) : Option Word := do
  let comp ← encodeComp? comp
  let dest ← encodeDest? dest
  let jump ← encodeJump? jump
  return (0xE000 : Word) ||| comp <<< (6 : Word) ||| dest <<< (3 : Word) ||| jump

end JackToolchain.Assembly
