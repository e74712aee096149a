import SpuCompiler.Bytecode.Record

/-!
Reading a method body instruction by instruction. A duplication is opened into a store to a
temporary and two loads of it, which are read one after the other. A reader that met a fault
can go on: it stands behind the bytes it took.
-/

namespace SpuCompiler.Bytecode

open Metadata

structure Reader where
  scope : Scope
  position : Nat
  /-- The code from `position` on. -/
  rest : List UInt8
  /-- Records of an opened duplication that are still to be read. -/
  queued : List Record
  /-- Temporaries in use. -/
  temporaries : Nat

namespace Reader

/-- Temporaries have 16-bit indices, and the last index stays free. -/
def temporaryLimit : Nat := 0xFFFF

def of (m : Method) (b : Body) (resolver : Resolver) : Reader :=
  ⟨Scope.of m b resolver, 0, b.instructions, [], 0⟩

/-- Opens a duplication: the three records share its offset, and the last has its size. -/
def openDup (r : Reader) (dup : Record) : Except DecodeError (Option Record) × Reader :=
  if r.temporaries < temporaryLimit then
    let part (op : Op) (size : Nat) : Record :=
      ⟨op, .ref (.temporary r.temporaries), dup.offset, size, dup.name⟩
    (.ok (some (part .stloc 0)),
      { r with
        queued := [part .ldloc 0, part .ldloc dup.size], temporaries := r.temporaries + 1 })
  else (.error ⟨dup.offset, .tooManyTemporaries⟩, r)

/-- The next record, or nothing at the end of the code. -/
def next (r : Reader) : Except DecodeError (Option Record) × Reader :=
  match r.queued with
  | record :: queued => (.ok (some record), { r with queued := queued })
  | [] =>
    if r.rest.isEmpty then (.ok none, r)
    else
      let (result, taken) := r.scope.decode r.position r.rest
      let after := { r with position := r.position + taken, rest := r.rest.drop taken }
      match result with
      | .error fault => (.error ⟨r.position, fault⟩, after)
      | .ok record => if record.op = .dup then after.openDup record else (.ok (some record), after)

/-- Reads at most `fuel` times and puts the records behind `acc`. -/
def collect (r : Reader) (acc : Array Record) : (fuel : Nat) → Except DecodeError (Array Record)
  | 0 => .ok acc
  | fuel + 1 =>
    match r.next with
    | (.error e, _) => .error e
    | (.ok none, _) => .ok acc
    | (.ok (some record), r) => r.collect (acc.push record) fuel

/-- All records up to the end, or the first error. Every byte gives at most three records. -/
def readAll (r : Reader) : Except DecodeError (List Record) :=
  (r.collect #[] (3 * r.rest.length + r.queued.length + 1)).map Array.toList

end Reader

end SpuCompiler.Bytecode
