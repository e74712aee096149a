import SpuCompiler.Options
import SpuCompiler.Selection.Fault
import SpuCompiler.Selection.Memory
import SpuCompiler.Trees.Variable

/-!
The frame of a routine. Variables whose address is taken and variables of value type have a slot
above the link area, all others a register. The prologue saves the link register, chains the
frame and stores the arguments; the epilogue undoes the frame and returns.
-/

namespace SpuCompiler.Selection

open Machine Metadata Trees

/-- The type of memory that holds a value of a stack type. -/
def memoryType? : StackType → Option Ty
  | .void => none
  | .int32 => some (.basic .i4)
  | .int64 => some (.basic .i8)
  | .nativeInt => some (.basic .i)
  | .float32 => some (.basic .r4)
  | .float64 => some (.basic .r8)
  | .objectRef ty | .valueType ty => some ty
  | .managedPointer ty => some (.byRef ty)

/-- The type of the memory of a variable: the declared one, else the one of its values. -/
def storageType? (v : Variable) : Option Ty := v.declared.or (v.stackType.bind memoryType?)

def livesInMemory (v : Variable) : Bool :=
  v.escapes = .yes || (storageType? v).any Ty.isValueType

/-- Bytes of the slot of a variable. -/
def slotSize (v : Variable) : Nat :=
  Binary.alignUp (max 16 (((storageType? v).map Ty.size).getD 16)) 16

structure Frame where
  size : Nat
  /-- Registers given to variables. -/
  registers : Nat
  vars : Variables

namespace Frame

/-- Storage of variables, with slots from `offset` and registers from `register` on, and the ends
of both. -/
def assign (offset register : Nat) : List Variable → List Variable × Nat × Nat
  | [] => ([], offset, register)
  | v :: vs =>
    if livesInMemory v then
      let (vs, ends) := assign (offset + slotSize v) register vs
      ({ v with storage := .frame offset } :: vs, ends)
    else
      let (vs, ends) := assign offset (register + 1) vs
      ({ v with storage := .register register } :: vs, ends)

def of (o : Options) (vars : Variables) : Frame :=
  let (vs, offset, registers) := assign o.linkAreaSize 0 vars.entries.toList
  ⟨Binary.alignUp offset 16, registers, { vars with entries := vs.toArray }⟩

/-- The size as a word of the machine. -/
def amount (f : Frame) : Int := Emit.signed32 f.size

/-- Quadwords of the frame. -/
def quadwords (f : Frame) : Int := f.amount.tdiv 16

/-- Faults of the arguments from `slot` on that have no register. -/
def argumentFaults (o : Options) (vars : Variables) (slot : Nat) :
    List Nat → List SelectionError
  | [] => []
  | id :: ids =>
    let rest := argumentFaults o vars (slot + 1) ids
    match o.argumentRegister slot with
    | some _ => rest
    | none =>
      let type := ((vars.get? id).bind Variable.stackType).getD .void
      ⟨0, .ldarg, type, .noArgumentRegister slot⟩ :: rest

/-- Faults of the prologue. The back chain is stored at a short distance. -/
def faults (o : Options) (f : Frame) (arguments : List Nat) : List SelectionError :=
  let rest := argumentFaults o f.vars 0 arguments
  if 512 < f.quadwords then ⟨0, .nop, .void, .frameTooLarge⟩ :: rest else rest

def adjustStack (delta : Int) : Emit Unit := do
  if Emit.isShort delta then Emit.instr (.ri .ai .sp .sp delta)
  else
    let amount ← Emit.loadImmediate delta
    Emit.instr (.rr .a .sp .sp amount)

def storeArgument (v : Variable) (incoming : Register) : Emit Unit :=
  match v.storage, storageType? v with
  | .register n, _ => Emit.move (.virtual n) incoming
  | .frame offset, some ty => Emit.storeMemory .sp (Emit.signed32 offset) incoming ty
  | _, _ => pure ()

/-- Stores the arguments from `slot` on. -/
def storeArguments (o : Options) (vars : Variables) (slot : Nat) : List Nat → Emit Unit
  | [] => return ()
  | id :: ids => do
    match o.argumentRegister slot, vars.get? id with
    | some h, some v => storeArgument v (.hardware h)
    | _, _ => pure ()
    storeArguments o vars (slot + 1) ids

def prologue (o : Options) (f : Frame) (arguments : List Nat) : Emit Unit := do
  Emit.instr (.ri .stqd .lr .sp 1)
  Emit.instr (.ri .stqd .sp .sp (-f.quadwords))
  adjustStack (-f.amount)
  storeArguments o f.vars 0 arguments

def epilogue (f : Frame) : Emit Unit := do
  adjustStack f.amount
  Emit.instr (.ri .lqd .lr .sp 1)
  Emit.instr { opcode := .bi, ra := some .lr }

end Frame

end SpuCompiler.Selection
