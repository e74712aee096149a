import SpuCompiler.Bytecode.Op
import SpuCompiler.Selection.Memory
import SpuCompiler.Trees.StackType

/-!
Code of arithmetic, comparisons and conversions. The machine has no 32-bit multiplication, no
division, no 64-bit integers and no comparison of doubles, so these are sequences of others.
-/

namespace SpuCompiler.Selection

open Machine Metadata Bytecode Trees

/-- How a value is held in a register. -/
inductive ValueKind where
  | word | long | single | double | struct | void
  deriving DecidableEq

def ValueKind.of : StackType → ValueKind
  | .int32 | .nativeInt | .objectRef _ | .managedPointer _ => .word
  | .int64 => .long
  | .float32 => .single
  | .float64 => .double
  | .valueType _ => .struct
  | .void => .void

/-- A comparison as an equality or greater-than mask. -/
structure Comparison where
  equal : Bool
  signed : Bool
  /-- The operands change places. -/
  swap : Bool
  /-- Whether the comparison holds where the mask is set. -/
  whenSet : Bool

def Comparison.of : Compare → Comparison
  | .eq => ⟨true, true, false, true⟩
  | .gt => ⟨false, true, false, true⟩
  | .gtUn => ⟨false, false, false, true⟩
  | .lt => ⟨false, true, true, true⟩
  | .ltUn => ⟨false, false, true, true⟩

def Comparison.ofBranch : BranchCompare → Comparison
  | .eq => .of .eq
  | .gt => .of .gt
  | .gtUn => .of .gtUn
  | .lt => .of .lt
  | .ltUn => .of .ltUn
  | .neUn => { Comparison.of .eq with whenSet := false }
  | .ge => { Comparison.of .lt with whenSet := false }
  | .geUn => { Comparison.of .ltUn with whenSet := false }
  | .le => { Comparison.of .gt with whenSet := false }
  | .leUn => { Comparison.of .gtUn with whenSet := false }

namespace Emit

/-- The sign bit of the first word and nothing else. -/
def doubleSignMask : Emit Register := do
  let sign ← imm .ilhu 0x8000
  let firstWord ← imm .fsmbi 0xF000
  rr .and sign firstWord

/-- The low word of a product, from products of halfwords. -/
def multiplyWord (left right : Register) : Emit Register := do
  let highLeft ← rr .mpyh left right
  let highRight ← rr .mpyh right left
  let low ← rr .mpyu left right
  let high ← rr .a highLeft highRight
  rr .a high low

/-- A quotient from a reciprocal estimate, refined by one step. -/
def divideSingle (dividend divisor : Register) : Emit Register := do
  let estimate ← rr .frest divisor divisor
  let reciprocal ← rr .fi divisor estimate
  let quotient ← rr .fm dividend reciprocal
  let residual ← rrr .fnms quotient divisor dividend
  rrr .fma residual reciprocal quotient

def negateSingle (value : Register) : Emit Register := do
  let sign ← imm .ilhu 0x8000
  rr .xor value sign

def negateDouble (value : Register) : Emit Register := do
  let sign ← doubleSignMask
  rr .xor value sign

/-- A right shift rotates by the negated count. -/
def shiftRight (op : Machine.Opcode) (value count : Register) : Emit Register := do
  let count ← ri .sfi count 0
  rr op value count

/-- Equality of 64-bit values: both words are equal. -/
def equalLong (a b : Register) : Emit Register := do
  let equal ← rr .ceq a b
  let lowEqual ← ri .rotqbyi equal 4
  rr .and equal lowEqual

/-- Order of 64-bit values: the high words decide, and where they are equal the low words,
which have no sign. -/
def greaterLong (signed : Bool) (a b : Register) : Emit Register := do
  let equal ← rr .ceq a b
  let highGreater ← rr (if signed then .cgt else .clgt) a b
  let greater ← rr .clgt a b
  let lowGreater ← ri .rotqbyi greater 4
  let tieBreak ← rr .and equal lowGreater
  rr .or highGreater tieBreak

/-- An unsigned integer in the order of doubles: negative ones are complemented, positive ones
get the sign bit. -/
def orderedKey (value : Register) : Emit Register := do
  let signWords ← ri .rotmai value (-31)
  let pattern ← imm .ilhu 0x0001
  instr (.imm .iohl pattern 0x0203)
  let sign ← rrr .shufb signWords signWords pattern
  let signBit ← doubleSignMask
  let flip ← rr .or sign signBit
  rr .xor value flip

def greaterDouble (a b : Register) : Emit Register := do
  let a ← orderedKey a
  let b ← orderedKey b
  greaterLong false a b

/-- The mask of a comparison, all ones in the preferred word where it is set. -/
def compare? (kind : ValueKind) (c : Comparison) (left right : Register) :
    Option (Emit Register) :=
  let a := if c.swap then right else left
  let b := if c.swap then left else right
  match kind with
  | .word => some (rr (if c.equal then .ceq else if c.signed then .cgt else .clgt) a b)
  | .single => some (rr (if c.equal then .fceq else .fcgt) a b)
  | .long => some (if c.equal then equalLong a b else greaterLong c.signed a b)
  | .double => some (if c.equal then equalLong a b else greaterDouble a b)
  | .struct | .void => none

/-- The scale of unscaled conversions to integers. -/
def toIntegerScale : Int := 173

/-- The scale of unscaled conversions to floats. -/
def toFloatScale : Int := 155

/-- A word to a 64-bit value. -/
def widen (signed : Bool) (value : Register) : Emit Register := do
  let high ← if signed then ri .rotmai value (-31) else imm .il 0
  let low ← ri .rotqbyi value 12
  let secondWord ← imm .fsmbi 0x0F00
  rrr .selb high low secondWord

/-- A word to a double: each half converts exactly through single precision, and the high half
times 65536 plus the low half is exact in double precision. -/
def wordToDouble (signed : Bool) (value : Register) : Emit Register := do
  let high ← ri (if signed then .rotmai else .rotmi) value (-16)
  let shifted ← ri .shli value 16
  let low ← ri .rotmi shifted (-16)
  let highSingle ← ri .csflt high toFloatScale
  let lowSingle ← ri .csflt low toFloatScale
  let highDouble ← rr .fesd highSingle highSingle
  let lowDouble ← rr .fesd lowSingle lowSingle
  let scaleSingle ← imm .ilhu 0x4780
  let scale ← rr .fesd scaleSingle scaleSingle
  let scaled ← rr .dfm highDouble scale
  rr .dfa scaled lowDouble

/-- A double to a word, toward zero. The mantissa is shifted right by 1075 less the exponent, at
which a mantissa is the value itself, and the low word is kept. A shift over 52 leaves no integer
part. Values that no word holds give some word. -/
def doubleToWord (signed : Bool) (value : Register) : Emit Register := do
  let biased ← ri .rotmi value (-20)
  let exponentMask ← loadImmediate 0x7FF
  let exponent ← rr .and biased exponentMask
  let bias ← loadImmediate 1075
  let shift ← rr .sf exponent bias
  let fractionMask ← loadImmediate 0x000FFFFF
  let fraction ← rr .and value fractionMask
  let implicit ← imm .ilhu 0x0010
  let highWord ← rr .or fraction implicit
  let firstWord ← imm .fsmbi 0xF000
  let mantissa ← rrr .selb value highWord firstWord
  let bytes ← ri .rotmi shift (-3)
  let byteCount ← ri .sfi bytes 0
  let bits ← ri .andi shift 7
  let bitCount ← ri .sfi bits 0
  let byBytes ← rr .rotqmby mantissa byteCount
  let byBits ← rr .rotqmbi byBytes bitCount
  let magnitude ← ri .rotqbyi byBits 4
  let truncated ←
    if signed then do
      let sign ← ri .rotmai value (-31)
      let flipped ← rr .xor magnitude sign
      rr .sf sign flipped
    else pure magnitude
  let fractional ← ri .cgti shift 52
  rr .andc truncated fractional

/-- Cuts a word to the width of a conversion. -/
def narrow (c : Conv) (value : Register) : Emit Register :=
  match c with
  | .i1 => extend value (.basic .i1)
  | .u1 => extend value (.basic .u1)
  | .i2 => extend value (.basic .i2)
  | .u2 => extend value (.basic .u2)
  | _ => pure value

end Emit

/-- Whether a conversion from a float reads an integer without a sign. -/
def isUnsignedConv : Conv → Bool
  | .u4 | .u | .u1 | .u2 => true
  | _ => false

end SpuCompiler.Selection
