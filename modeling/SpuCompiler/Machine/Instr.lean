import SpuCompiler.Machine.Word

/-!
Instructions over virtual and hardware registers. An instruction may name a block or an
object as its target; it is encoded under a map from virtual to hardware registers.
-/

namespace SpuCompiler.Machine

inductive Register where
  | hardware (index : Nat)
  | virtual (index : Nat)
  deriving DecidableEq

namespace Register

/-- The link register. -/
def lr : Register := .hardware 0

/-- The stack pointer. -/
def sp : Register := .hardware 1

def text : Register → String
  | .hardware 0 => "$lr"
  | .hardware 1 => "$sp"
  | .hardware n => s!"${n}"
  | .virtual n => s!"%{n}"

def virtual? : Register → Option Nat
  | .virtual n => some n
  | .hardware _ => none

end Register

/-- A symbolic target: a block of the routine at hand, or an object of the program. -/
inductive Target where
  | block (id : Nat)
  | object (id : Nat)
  deriving DecidableEq

/-- Hardware registers of the virtual ones that have one. -/
abbrev RegisterMap := Nat → Option Nat

structure Instr where
  opcode : Opcode
  rt : Option Register := none
  ra : Option Register := none
  rb : Option Register := none
  rc : Option Register := none
  constant : Int := 0
  target : Option Target := none
  deriving DecidableEq

namespace Instr

def rr (op : Opcode) (rt ra rb : Register) : Instr :=
  { opcode := op, rt := some rt, ra := some ra, rb := some rb }

def rrr (op : Opcode) (rt ra rb rc : Register) : Instr :=
  { opcode := op, rt := some rt, ra := some ra, rb := some rb, rc := some rc }

def ri (op : Opcode) (rt ra : Register) (constant : Int) : Instr :=
  { opcode := op, rt := some rt, ra := some ra, constant := constant }

def imm (op : Opcode) (rt : Register) (constant : Int) : Instr :=
  { opcode := op, rt := some rt, constant := constant }

def withTarget (op : Opcode) (rt : Option Register) (target : Target) : Instr :=
  { opcode := op, rt := rt, target := some target }

/-- The registers present, in the order `rt`, `ra`, `rb`, `rc`. -/
def registers (i : Instr) : List Register := [i.rt, i.ra, i.rb, i.rc].filterMap id

/-- The hardware number of a register field; an absent field is zero. -/
def resolve (op : Opcode) (map : RegisterMap) : Option Register → Except EncodeError Nat
  | none => .ok 0
  | some (.hardware n) => .ok n
  | some (.virtual n) =>
    match map n with
    | some h => .ok h
    | none => .error (.unmappedRegister op.mnemonic n)

def encode (i : Instr) (map : RegisterMap) : Except EncodeError Word := do
  let rt ← resolve i.opcode map i.rt
  let ra ← resolve i.opcode map i.ra
  let rb ← resolve i.opcode map i.rb
  let rc ← resolve i.opcode map i.rc
  Machine.encode i.opcode { rt, ra, rb, rc, immediate := i.constant }

/-- Mnemonic, registers, and then the target or a constant other than zero. -/
def text (i : Instr) : String :=
  let registers := ",".intercalate (i.registers.map Register.text)
  let head := if i.registers.isEmpty then i.opcode.mnemonic
    else i.opcode.mnemonic ++ " " ++ registers
  match i.target with
  | some (.block n) => s!"{head} -> block{n}"
  | some (.object n) => s!"{head} -> object{n}"
  | none => if i.constant = 0 then head else s!"{head},{i.constant}"

end Instr

end SpuCompiler.Machine
