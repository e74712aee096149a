import SpuCompiler.Machine.Opcode

/-!
Instruction words. `encode` lays the fields of one instruction out in the 32 bits of its
format; `immediate16` and `immediate18` read the two wide immediates back.
-/

namespace SpuCompiler.Machine

abbrev Word := BitVec 32

/-- Reasons for which an instruction has no word. Each carries the mnemonic. -/
inductive EncodeError where
  | immediateOutOfRange (mnemonic : String) (value : Int)
  | registerOutOfRange (mnemonic : String) (register : Nat)
  | unmappedRegister (mnemonic : String) (register : Nat)
  | pseudo (mnemonic : String)
  deriving DecidableEq

def EncodeError.message : EncodeError → String
  | .immediateOutOfRange m v => s!"{m} immediate {v} out of range"
  | .registerOutOfRange m r => s!"{m} register ${r} out of range"
  | .unmappedRegister m r => s!"{m} uses virtual register %{r} with no hardware register"
  | .pseudo m => s!"{m} has no encoding"

/-- Register numbers and immediate of one instruction; an unused field is zero. -/
structure Fields where
  rt : Nat := 0
  ra : Nat := 0
  rb : Nat := 0
  rc : Nat := 0
  immediate : Int := 0
  deriving DecidableEq

namespace Fields

def registers (f : Fields) : List Nat := [f.rt, f.ra, f.rb, f.rc]

/-- The bits of a word of layout `format`, cut to the width of each field. -/
def word? (f : Fields) (bits : Nat) : Format → Option Word
  | .rr => some (BitVec.ofNat 11 bits ++ BitVec.ofNat 7 f.rb ++ BitVec.ofNat 7 f.ra ++
      BitVec.ofNat 7 f.rt)
  | .rrr => some (BitVec.ofNat 4 bits ++ BitVec.ofNat 7 f.rt ++ BitVec.ofNat 7 f.rb ++
      BitVec.ofNat 7 f.ra ++ BitVec.ofNat 7 f.rc)
  | .ri7 => some (BitVec.ofNat 11 bits ++ BitVec.ofInt 7 f.immediate ++ BitVec.ofNat 7 f.ra ++
      BitVec.ofNat 7 f.rt)
  | .ri8 => some (BitVec.ofNat 10 bits ++ BitVec.ofInt 8 f.immediate ++ BitVec.ofNat 7 f.ra ++
      BitVec.ofNat 7 f.rt)
  | .ri10 => some (BitVec.ofNat 8 bits ++ BitVec.ofInt 10 f.immediate ++ BitVec.ofNat 7 f.ra ++
      BitVec.ofNat 7 f.rt)
  | .ri16 => some (BitVec.ofNat 9 bits ++ BitVec.ofInt 16 f.immediate ++ BitVec.ofNat 7 f.rt)
  | .ri18 => some (BitVec.ofNat 7 bits ++ BitVec.ofInt 18 f.immediate ++ BitVec.ofNat 7 f.rt)
  | .stop => some (BitVec.ofNat 11 bits ++ (0 : BitVec 7) ++ BitVec.ofInt 14 f.immediate)
  | .pseudo => none

end Fields

/-- Refuses an immediate outside the range of the opcode. -/
def checkImmediate (op : Opcode) (value : Int) : Except EncodeError Unit :=
  match op.immediateRange with
  | some (low, high) =>
    if value < low ∨ high < value then .error (.immediateOutOfRange op.mnemonic value)
    else .ok ()
  | none => .ok ()

/-- The word of an instruction. Registers are checked first, in the order `rt`, `ra`, `rb`,
`rc`, then the immediate. -/
def encode (op : Opcode) (f : Fields) : Except EncodeError Word :=
  match f.registers.find? (127 < ·) with
  | some r => .error (.registerOutOfRange op.mnemonic r)
  | none => do
    checkImmediate op f.immediate
    match f.word? op.bits op.format with
    | some w => .ok w
    | none => .error (.pseudo op.mnemonic)

/-- The signed immediate of a word with a 16-bit one. -/
def immediate16 (w : Word) : Int := (w.extractLsb' 7 16).toInt

/-- The unsigned immediate of a word with an 18-bit one. -/
def immediate18 (w : Word) : Nat := (w.extractLsb' 7 18).toNat

end SpuCompiler.Machine
