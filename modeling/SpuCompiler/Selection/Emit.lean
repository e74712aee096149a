import SpuCompiler.Machine.Instr

/-!
Emission of straight-line code. A stream holds the code so far and the number of the next
virtual register; a fragment of code extends the stream and gives the register of its result.
-/

namespace SpuCompiler.Selection

open Machine

structure Stream where
  /-- The next virtual register. -/
  next : Nat := 0
  code : Array Instr := #[]

/-- Fragments of code. -/
abbrev Emit := StateM Stream

namespace Emit

def instr (i : Instr) : Emit Unit := modify fun s => { s with code := s.code.push i }

/-- A register not used before. -/
def fresh : Emit Register :=
  modifyGet fun s => (.virtual s.next, { s with next := s.next + 1 })

def rr (op : Opcode) (ra rb : Register) : Emit Register := do
  let rt ← fresh
  instr (.rr op rt ra rb)
  return rt

def rrr (op : Opcode) (ra rb rc : Register) : Emit Register := do
  let rt ← fresh
  instr (.rrr op rt ra rb rc)
  return rt

def ri (op : Opcode) (ra : Register) (constant : Int) : Emit Register := do
  let rt ← fresh
  instr (.ri op rt ra constant)
  return rt

def imm (op : Opcode) (constant : Int) : Emit Register := do
  let rt ← fresh
  instr (.imm op rt constant)
  return rt

/-- A fresh register set by an instruction with a target. -/
def targeted (op : Opcode) (target : Target) : Emit Register := do
  let rt ← fresh
  instr (.withTarget op (some rt) target)
  return rt

def move (dst src : Register) : Emit Unit := instr (.ri .ori dst src 0)

/-- The value of a 32-bit pattern read with a sign. -/
def signed32 (n : Nat) : Int := (BitVec.ofNat 32 n).toInt

/-- Immediates of the ten-bit forms. -/
def isShort (value : Int) : Bool := -512 ≤ value ∧ value ≤ 511

/-- Immediates of the sixteen-bit forms. -/
def isHalf (value : Int) : Bool := -0x8000 ≤ value ∧ value ≤ 0x7FFF

/-- Sets a register to a word: in one instruction where it fits, else by halves. -/
def loadImmediate (value : Int) : Emit Register := do
  if isHalf value then imm .il value
  else
    let bits := (BitVec.ofInt 32 value).toNat
    let rt ← imm .ilhu (bits / 0x10000 : Nat)
    if bits % 0x10000 ≠ 0 then instr (.imm .iohl rt (bits % 0x10000 : Nat))
    return rt

/-- The sum of a register and a word; adding zero takes no code. -/
def addImmediate (base : Register) (value : Int) : Emit Register := do
  if value = 0 then return base
  else if isShort value then ri .ai base value
  else
    let amount ← loadImmediate value
    rr .a base amount

end Emit

end SpuCompiler.Selection
