import SpuCompiler.Trees.Node
import SpuCompiler.Trees.Variable

/-! A method in tree form: basic blocks by increasing offset, each a list of trees. -/

namespace SpuCompiler.Trees

open Metadata

/-- Trees evaluated one after the other, from the instruction at `offset` on. -/
structure Block where
  offset : Nat
  roots : Array Node := #[]

structure Routine where
  method : Method
  blocks : Array Block
  vars : Variables
  /-- Places of the argument variables, by slot. -/
  arguments : List Nat
  /-- Places of the declared locals, by index. -/
  locals : List Nat

namespace Routine

def name (r : Routine) : String := r.method.symbol

/-- The block that starts at an offset. -/
def blockAt? (r : Routine) (offset : Nat) : Option Nat := r.blocks.findIdx? (·.offset == offset)

end Routine

end SpuCompiler.Trees
