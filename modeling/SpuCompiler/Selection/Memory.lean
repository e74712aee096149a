import SpuCompiler.Binary.Align
import SpuCompiler.Metadata.Ty
import SpuCompiler.Selection.Emit

/-!
Access to memory. Memory is read and written by quadwords: a scalar is rotated into the preferred
slot of a register, or merged into the quadword around it. A value type is known by its address.
-/

namespace SpuCompiler.Selection.Emit

open Machine Metadata

/-- Extends a byte or halfword in the preferred slot to a word. -/
def extend (value : Register) (ty : Ty) : Emit Register := do
  match ty with
  | .basic .i1 =>
    let half ← rr .xsbh value value
    rr .xshw half half
  | .basic .i2 => rr .xshw value value
  | .basic .u1 | .basic .bool => ri .andi value 0xFF
  | _ =>
    let high ← ri .shli value 16
    ri .rotmi high (-16)

/-- Writes `count` quadwords of `source` to `destination`, from number `index` on. -/
def copyQuadwords (destination source : Register) (index : Nat) : (count : Nat) → Emit Unit
  | 0 => return ()
  | count + 1 => do
    let value ← ri .lqd source index
    instr (.ri .stqd value destination index)
    copyQuadwords destination source (index + 1) count

/-- Writes a register to `count` quadwords, from number `index` on. -/
def fillQuadwords (value destination : Register) (index : Nat) : (count : Nat) → Emit Unit
  | 0 => return ()
  | count + 1 => do
    instr (.ri .stqd value destination index)
    fillQuadwords value destination (index + 1) count

/-- Makes the shuffle pattern that merges a scalar of the given size into a quadword. -/
def insertOpcode (size : Nat) : Opcode :=
  match size with
  | 1 => .cbd
  | 2 => .chd
  | 8 => .cdd
  | _ => .cwd

def loadMemory (address : Register) (offset : Int) (ty : Ty) : Emit Register := do
  let ea ← addImmediate address offset
  if ty.isValueType then return ea
  let quadword ← ri .lqd ea 0
  match ty.size with
  | 1 =>
    let shift ← ri .ai ea (-3)
    let value ← rr .rotqby quadword shift
    extend value ty
  | 2 =>
    let shift ← ri .ai ea (-2)
    let value ← rr .rotqby quadword shift
    extend value ty
  | _ => rr .rotqby quadword ea

def storeMemory (address : Register) (offset : Int) (value : Register) (ty : Ty) : Emit Unit := do
  let ea ← addImmediate address offset
  if ty.isValueType then copyQuadwords ea value 0 (Binary.quadwords ty.size)
  else
    let quadword ← ri .lqd ea 0
    let mask ← ri (insertOpcode ty.size) ea 0
    let merged ← rrr .shufb value quadword mask
    instr (.ri .stqd merged ea 0)

/-- Zeroes the storage of a type at an address. -/
def clearMemory (address : Register) (ty : Ty) : Emit Unit := do
  let zero ← imm .il 0
  if ty.isValueType then fillQuadwords zero address 0 (Binary.quadwords ty.size)
  else storeMemory address 0 zero ty

/-- Loads a scalar from the front of an object. -/
def loadObject (object : Target) (ty : Ty) : Emit Register := do
  let quadword ← targeted .lqr object
  match ty.size with
  | 1 =>
    let value ← ri .rotqbyi quadword 13
    extend value ty
  | 2 =>
    let value ← ri .rotqbyi quadword 14
    extend value ty
  | _ => return quadword

/-- Stores a scalar at the front of an object. The stack pointer is a multiple of a quadword, so
that the pattern made from it is the one for the front. -/
def storeObject (object : Target) (value : Register) (ty : Ty) : Emit Unit := do
  let quadword ← targeted .lqr object
  let mask ← ri (insertOpcode ty.size) .sp 0
  let merged ← rrr .shufb value quadword mask
  instr (.withTarget .stqr (some merged) object)

/-- Elements start one quadword after the header of their array. -/
def arrayHeaderSize : Int := 16

/-- An index times the size of an element: a power of two by a shift, else a short immediate. -/
def scaleIndex? (size : Nat) (index : Register) : Option (Emit Register) :=
  if size = 1 then some (pure index)
  else if size ≠ 0 ∧ Nat.pow 2 size.log2 = size then some (ri .shli index size.log2)
  else if size ≤ 511 then some (ri .mpyi index size)
  else none

/-- The address of an element, for sizes that an index can be scaled by. -/
def elementAddress? (size : Nat) (array index : Register) : Option (Emit Register) :=
  (scaleIndex? size index).map fun scale => do
    let scaled ← scale
    let element ← rr .a array scaled
    ri .ai element arrayHeaderSize

end SpuCompiler.Selection.Emit
