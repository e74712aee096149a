import SpuCompiler.Binary.Bytes
import SpuCompiler.Objects.Layout
import SpuCompiler.Selection.Code
import SpuCompiler.Trees.Routine

/-!
Code of a routine: a prologue, a block of code for each block of trees, and an epilogue, each an
object of the program. Trees are lowered children first; a node with a fault has no code, and
lowering goes on to find the others. A routine with faults drops the objects that it added.
-/

namespace SpuCompiler.Selection

open Machine Metadata Bytecode Trees Objects

structure SelectedBlock where
  object : ObjectId
  /-- The block of trees that the code comes from, if it is neither prologue nor epilogue. -/
  source : Option Nat
  code : Array Instr

/-- A routine over virtual registers. -/
structure SelectedRoutine where
  name : String
  routine : ObjectId
  frame : Frame
  registerCount : Nat
  prologue : SelectedBlock
  blocks : List SelectedBlock
  epilogue : SelectedBlock

namespace SelectedRoutine

def allBlocks (s : SelectedRoutine) : List SelectedBlock := s.prologue :: s.blocks ++ [s.epilogue]

def instructions (s : SelectedRoutine) : List Instr := s.allBlocks.flatMap fun b => b.code.toList

/-- Gives the code of blocks to their objects. -/
def installBlocks (a : Arena) : List SelectedBlock → Arena
  | [] => a
  | b :: bs => installBlocks (a.setCode b.object b.code) bs

/-- Gives the code to the objects of the routine and names its epilogue. -/
def install (s : SelectedRoutine) (a : Arena) : Arena :=
  (installBlocks a s.allBlocks).setEpilogue s.routine s.epilogue.object

end SelectedRoutine

/-- What lowering has done so far. -/
structure Progress where
  stream : Stream := {}
  arena : Arena
  /-- Objects made for constants. -/
  constants : Nat := 0
  errors : Array SelectionError := #[]

/-- What lowering of a routine reads. -/
structure Lowering where
  name : String
  options : Options
  vars : Variables

abbrev LowerM := StateM Progress

namespace Lowering

def emit {α : Type} (e : Emit α) : LowerM α := modifyGet fun p =>
  let (a, stream) := e.run p.stream
  (a, { p with stream := stream })

/-- Notes the fault of a node, which then has no value. -/
def report (n : Node) (fault : Fault) : LowerM (Option Register) := do
  modify fun p => { p with errors := p.errors.push ⟨n.offset, n.op, n.type, fault⟩ }
  return none

/-- The bits of a constant that takes 64 of them. -/
def wideConstant? (n : Node) : Option (BitVec 64) :=
  match n.op, n.operand with
  | .ldc .i8, .int64 v => some v
  | .ldc .r8, .float64 b => some b
  | _, _ => none

/-- Loads a constant from an object of its own, in which it stands first. -/
def loadWide (s : Lowering) (n : Node) (bits : BitVec 64) : LowerM (Option Register) := do
  let p ← get
  let name := s!"{s.name}#const{p.constants}"
  set { p with constants := p.constants + 1 }
  match p.arena.addData name (Binary.bigEndian 8 bits.toNat ++ List.replicate 8 0) with
  | .ok (id, arena) =>
    modify fun p => { p with arena := arena }
    let rt ← emit (Emit.targeted .lqr (.object id))
    return some rt
  | .error e => report n (.layout e)

/-- Lowers a node whose children have been lowered. -/
def lowerNode (s : Lowering) (n : Node) (regs : List Register) : LowerM (Option Register) := do
  match wideConstant? n, regs with
  | some bits, [] => s.loadWide n bits
  | _, _ =>
    match Code.of ⟨s.options, s.vars, (← get).arena⟩ n regs with
    | .ok code => emit code
    | .error fault => report n fault

/-- The register of a value; where there is none, one that nothing sets. -/
def orFresh : Option Register → LowerM Register
  | some r => return r
  | none => emit Emit.fresh

mutual

def lower (s : Lowering) : Node → LowerM (Option Register)
  | .leaf h => s.lowerNode (.leaf h) []
  | .unary h l => do
    let a ← orFresh (← s.lower l)
    s.lowerNode (.unary h l) [a]
  | .rightOnly h r => do
    let a ← orFresh (← s.lower r)
    s.lowerNode (.rightOnly h r) [a]
  | .binary h l r => do
    let a ← orFresh (← s.lower l)
    let b ← orFresh (← s.lower r)
    s.lowerNode (.binary h l r) [a, b]
  | .call h m args => do
    let regs ← s.lowerArgs args
    s.lowerNode (.call h m args) regs

def lowerArgs (s : Lowering) : List Node → LowerM (List Register)
  | [] => return []
  | n :: ns => do
    let r ← orFresh (← s.lower n)
    let rs ← s.lowerArgs ns
    return r :: rs

end

def lowerRoots (s : Lowering) : List Node → LowerM Unit
  | [] => return ()
  | n :: ns => do
    let _ ← s.lower n
    s.lowerRoots ns

/-- Takes the code since the last block. -/
def takeCode : LowerM (Array Instr) := modifyGet fun p =>
  (p.stream.code, { p with stream := { p.stream with code := #[] } })

/-- Code of blocks of trees, one after the other. -/
def lowerBlocks (s : Lowering) : List Block → LowerM (List (Array Instr))
  | [] => return []
  | b :: bs => do
    s.lowerRoots b.roots.toList
    let code ← takeCode
    let codes ← s.lowerBlocks bs
    return code :: codes

/-- Code of the prologue, of the blocks of trees and of the epilogue. -/
def lowerRoutine (s : Lowering) (frame : Frame) (r : Routine) :
    LowerM (Array Instr × List (Array Instr) × Array Instr) := do
  emit (frame.prologue s.options r.arguments)
  let prologue ← takeCode
  let body ← s.lowerBlocks r.blocks.toList
  emit frame.epilogue
  let epilogue ← takeCode
  return (prologue, body, epilogue)

end Lowering

/-- Adds a block to a routine. -/
def addBlock (routine : ObjectId) (name : String) : LayoutM ObjectId := do
  let (id, a) ← (← get).addBlock routine name
  set a
  return id

/-- Adds blocks to a routine. -/
def addBlocks (routine : ObjectId) : List String → LayoutM (List ObjectId)
  | [] => return []
  | name :: names => do
    let id ← addBlock routine name
    let ids ← addBlocks routine names
    return id :: ids

/-- Objects of the blocks of a routine. -/
structure BlockObjects where
  prologue : ObjectId
  body : Array ObjectId
  epilogue : ObjectId

/-- Adds the prologue, a block for each block of trees, and the epilogue. -/
def allocateBlocks (r : Routine) (routine : ObjectId) : LayoutM BlockObjects := do
  let prologue ← addBlock routine s!"{r.name}#prologue"
  let names := r.blocks.toList.map fun b => s!"{r.name}#{Text.codeLabel b.offset}"
  let body ← addBlocks routine names
  let epilogue ← addBlock routine s!"{r.name}#epilogue"
  return ⟨prologue, body.toArray, epilogue⟩

/-- A branch to a block becomes one to its object. -/
def resolveTarget (body : Array ObjectId) (i : Instr) : Instr :=
  match i.target with
  | some (.block b) =>
    match body[b]? with
    | some object => { i with target := some (.object object) }
    | none => i
  | _ => i

/-- Blocks of code with their objects, numbered from `index` on. -/
def bodyBlocks (body : Array ObjectId) (index : Nat) :
    List ObjectId → List (Array Instr) → List SelectedBlock
  | object :: objects, code :: codes =>
    ⟨object, some index, code.map (resolveTarget body)⟩ ::
      bodyBlocks body (index + 1) objects codes
  | _, _ => []

/-- The code of a routine, or all of its faults, and the arena with what was added to it. -/
def addRoutineCode (o : Options) (a : Arena) (r : Routine) (routine : ObjectId) :
    Except SelectionErrors SelectedRoutine × Arena :=
  let frame := Frame.of o r.vars
  match (allocateBlocks r routine).run.run a with
  | (.error e, a) => (.error ⟨r.name, [⟨0, .nop, .void, .layout e⟩]⟩, a)
  | (.ok objects, a) =>
    let lowering : Lowering := ⟨r.name, o, frame.vars⟩
    let start : Progress := { stream := { next := frame.registers }, arena := a }
    let ((prologue, body, epilogue), p) := (lowering.lowerRoutine frame r).run start
    match frame.faults o r.arguments ++ p.errors.toList with
    | [] =>
      (.ok {
        name := r.name
        routine := routine
        frame := frame
        registerCount := p.stream.next
        prologue := ⟨objects.prologue, none, prologue⟩
        blocks := bodyBlocks objects.body 0 objects.body.toList body
        epilogue := ⟨objects.epilogue, none, epilogue⟩ }, p.arena)
    | errors => (.error ⟨r.name, errors⟩, p.arena)

/-- The code of a routine, or all of its faults, and the arena. Where there are faults, what was
added to the arena is dropped again. -/
def selectInto (o : Options) (a : Arena) (r : Routine) (routine : ObjectId) :
    Except SelectionErrors SelectedRoutine × Arena :=
  match addRoutineCode o a r routine with
  | (.ok s, a') => (.ok s, a')
  | (.error e, a') => (.error e, a'.truncate a.size)

/-- The code of a routine and the arena with its objects, or all of its faults. -/
def select (o : Options) (a : Arena) (r : Routine) (routine : ObjectId) :
    Except SelectionErrors (SelectedRoutine × Arena) :=
  match selectInto o a r routine with
  | (.ok s, a) => .ok (s, a)
  | (.error e, _) => .error e

end SpuCompiler.Selection
