import SpuCompiler.Trees.StackType

/-!
Variables of a routine: its arguments, its declared locals, and synthetic ones that carry
values of the evaluation stack. A variable is known by its place in the list.
-/

namespace SpuCompiler.Trees

open Metadata

inductive VariableKind where
  | argument | localVar | synthetic
  deriving DecidableEq

/-- Whether the address of a variable is taken. -/
inductive Escapes where
  | unknown | yes | no
  deriving DecidableEq

inductive Storage where
  | unassigned
  /-- A virtual register. -/
  | register (index : Nat)
  /-- Bytes above the stack pointer. -/
  | frame (offset : Nat)
  deriving DecidableEq

structure Variable where
  kind : VariableKind
  index : Nat
  declared : Option Ty
  stackType : Option StackType
  escapes : Escapes := .unknown
  storage : Storage := .unassigned
  deriving DecidableEq

/-- The index of the first synthetic variable. -/
def syntheticBase : Nat := 1000

structure Variables where
  entries : Array Variable := #[]
  synthetics : Nat := 0

namespace Variables

def size (v : Variables) : Nat := v.entries.size

def get? (v : Variables) (id : Nat) : Option Variable := v.entries[id]?

def modify (v : Variables) (id : Nat) (f : Variable → Variable) : Variables :=
  { v with entries := v.entries.modify id f }

/-- Adds a variable that the method declares. -/
def declare (v : Variables) (kind : VariableKind) (index : Nat) (ty : Ty) : Variables :=
  { v with entries := v.entries.push ⟨kind, index, some ty, some (StackType.ofTy ty), .unknown,
      .unassigned⟩ }

/-- Adds variables with indices from `start` on. -/
def declareAll (v : Variables) (kind : VariableKind) (start : Nat) : List Ty → Variables
  | [] => v
  | ty :: tys => (v.declare kind start ty).declareAll kind (start + 1) tys

/-- Adds a synthetic variable, without a type, and gives its place. -/
def addSynthetic (v : Variables) : Nat × Variables :=
  (v.size,
    { entries := v.entries.push ⟨.synthetic, syntheticBase + v.synthetics, none, none, .unknown,
        .unassigned⟩,
      synthetics := v.synthetics + 1 })

/-- Adds `count` synthetic variables and gives their places in order. -/
def addSynthetics (v : Variables) : (count : Nat) → List Nat × Variables
  | 0 => ([], v)
  | count + 1 =>
    let (id, v) := v.addSynthetic
    let (ids, v) := v.addSynthetics count
    (id :: ids, v)

def markEscaping (v : Variables) (id : Nat) : Variables :=
  v.modify id fun x => { x with escapes := .yes }

/-- Places of the synthetic variables. -/
def syntheticIds (v : Variables) : List Nat :=
  (List.range v.size).filter fun id => (v.get? id).any (·.kind = .synthetic)

end Variables

end SpuCompiler.Trees
