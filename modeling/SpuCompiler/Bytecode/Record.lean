import SpuCompiler.Binary.Bytes
import SpuCompiler.Bytecode.Opcode
import SpuCompiler.Bytecode.Operand
import SpuCompiler.Metadata.Token
import SpuCompiler.Text.Hex

/-!
Decoded instructions. `Scope.decode` reads one instruction off the front of the code: opcode,
then operand, then the check of the operand against the method and the length of the code.
-/

namespace SpuCompiler.Bytecode

open Metadata

/-- What the operand of a decoded instruction may refer to. -/
inductive Place where
  | localVar (index : Nat)
  /-- Slot 0 is the receiver where there is one. -/
  | argument (index : Nat)
  /-- A temporary that holds a duplicated value. -/
  | temporary (index : Nat)
  /-- The offset of an instruction. -/
  | target (offset : Nat)
  deriving DecidableEq

/-- One decoded instruction, in canonical form. -/
structure Record where
  op : Op
  operand : Operand Place
  offset : Nat
  size : Nat
  name : String
  deriving DecidableEq

namespace Record

def stop (r : Record) : Nat := r.offset + r.size

/-- The offset that a branch goes to. -/
def target? (r : Record) : Option Nat :=
  match r.operand with
  | .ref (.target t) => some t
  | _ => none

end Record

inductive DecodeFault where
  | unexpectedEnd
  | unknownOpcode (value : Nat)
  | modifier (name : String)
  | unsupportedOperand (name : String)
  | unresolvedToken (name : String) (token : Nat)
  | localOutOfRange (name : String) (index count : Nat)
  | argumentOutOfRange (name : String) (index count : Nat)
  | targetOutOfRange (name : String) (target : Int)
  | tooManyTemporaries
  deriving DecidableEq

/-- A fault and the offset of the instruction that has it. -/
structure DecodeError where
  offset : Nat
  fault : DecodeFault
  deriving DecidableEq

def DecodeError.message (e : DecodeError) : String :=
  let place := Text.codeLabel e.offset
  match e.fault with
  | .unexpectedEnd => s!"unexpected end of code at {place}"
  | .unknownOpcode v => s!"unknown opcode {Text.hex 4 v} at {place}"
  | .modifier n => s!"prefix opcode {n} is not supported at {place}"
  | .unsupportedOperand n => s!"operand of {n} is not supported at {place}"
  | .unresolvedToken n t => s!"{n} token {Text.hex 8 t} did not resolve at {place}"
  | .localOutOfRange n i c => s!"{n} local {i} out of range ({c} declared) at {place}"
  | .argumentOutOfRange n i c => s!"{n} argument {i} out of range ({c} declared) at {place}"
  | .targetOutOfRange n t => s!"{n} target {t} out of range at {place}"
  | .tooManyTemporaries => s!"dup at {place} exhausts the temporary indices"

/-- What operands are checked against. -/
structure Scope where
  arguments : Nat
  locals : Nat
  /-- Bytes of code. -/
  length : Nat
  resolver : Resolver

namespace Scope

def of (m : Method) (b : Body) (resolver : Resolver) : Scope :=
  ⟨m.argumentCount, b.locals.length, b.instructions.length, resolver⟩

/-- The variable with an index, an argument or a local by the operation. -/
def variableAt (s : Scope) (name : String) (op : Op) (index : Nat) :
    Except DecodeFault (Operand Place) :=
  match op with
  | .ldarg | .ldarga | .starg =>
    if index < s.arguments then .ok (.ref (.argument index))
    else .error (.argumentOutOfRange name index s.arguments)
  | _ =>
    if index < s.locals then .ok (.ref (.localVar index))
    else .error (.localOutOfRange name index s.locals)

/-- The offset at a distance from the end of a branch. -/
def target (s : Scope) (name : String) (stop : Nat) (displacement : Int) :
    Except DecodeFault (Operand Place) :=
  let target := stop + displacement
  if 0 ≤ target ∧ target < s.length then .ok (.ref (.target target.toNat))
  else .error (.targetOutOfRange name target)

/-- An entity behind a token. -/
def resolve {α : Type} (name : String) (token : Nat) (wrap : α → Operand Place) :
    Option α → Except DecodeFault (Operand Place)
  | some a => .ok (wrap a)
  | none => .error (.unresolvedToken name token)

/-- The operand of an instruction that ends at `stop`, from the number in its operand bytes. -/
def operand (s : Scope) (o : Opcode) (op : Op) (stop value : Nat) :
    Except DecodeFault (Operand Place) :=
  match o.operand with
  | .none =>
    match o.implied with
    | .none => .ok .none
    | .int v => .ok (.int32 (BitVec.ofInt 32 v))
    | .index n => s.variableAt o.name op n
  | .shortVar | .var => s.variableAt o.name op value
  | .shortI => .ok (.int32 ((BitVec.ofNat 8 value).signExtend 32))
  | .i => .ok (.int32 (BitVec.ofNat 32 value))
  | .i8 => .ok (.int64 (BitVec.ofNat 64 value))
  | .r4 => .ok (.float32 (BitVec.ofNat 32 value))
  | .r => .ok (.float64 (BitVec.ofNat 64 value))
  | .shortTarget => s.target o.name stop (BitVec.ofNat 8 value).toInt
  | .target => s.target o.name stop (BitVec.ofNat 32 value).toInt
  | .field => resolve o.name value .field (s.resolver.field value)
  | .method => resolve o.name value .method (s.resolver.method value)
  | .type => resolve o.name value .type (s.resolver.type value)
  | .string => resolve o.name value .string (s.resolver.string value)
  | .switch => .error (.unsupportedOperand o.name)

/-- The rest of an instruction after its opcode, and how many bytes of the whole instruction
are taken. A missing operand byte leaves all operand bytes where they are. -/
def decodeOperand (s : Scope) (start : Nat) (o : Opcode) (bytes : List UInt8) :
    Except DecodeFault Record × Nat :=
  match o.op with
  | none => (.error (.modifier o.name), o.selectorLength)
  | some op =>
    match o.operand.width? with
    | none => (.error (.unsupportedOperand o.name), o.selectorLength)
    | some width =>
      let operandBytes := bytes.take width
      if operandBytes.length < width then (.error .unexpectedEnd, o.selectorLength)
      else
        let size := o.selectorLength + width
        let operand := s.operand o op (start + size) (Binary.ofLittleEndian operandBytes)
        (operand.map fun operand => ⟨op, operand, start, size, o.name⟩, size)

/-- The instruction at the front of `bytes`, which start at offset `start`, and how many bytes
are taken, also when there is a fault. -/
def decode (s : Scope) (start : Nat) : List UInt8 → Except DecodeFault Record × Nat
  | [] => (.error .unexpectedEnd, 0)
  | lead :: bytes =>
    if lead.toNat = leadByte then
      match bytes with
      | [] => (.error .unexpectedEnd, 1)
      | low :: bytes =>
        match Opcode.extended? low with
        | none => (.error (.unknownOpcode (leadByte * 256 + low.toNat)), 2)
        | some o => s.decodeOperand start o bytes
    else
      match Opcode.single? lead with
      | none => (.error (.unknownOpcode lead.toNat), 1)
      | some o => s.decodeOperand start o bytes

end Scope

end SpuCompiler.Bytecode
