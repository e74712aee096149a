import SpuCompiler.Trees.Boundary
import SpuCompiler.Trees.Routine

/-!
From records to trees. Values on the evaluation stack are trees that nothing has taken yet, on
top of variables that hold values from before. At the end of a block the whole stack moves into
variables that every way into the next block agrees on; before a statement the trees move into
fresh variables, so that effects keep their order.
-/

namespace SpuCompiler.Trees

open Metadata Bytecode

structure Builder where
  method : Method
  /-- Bytes of code. -/
  length : Nat
  blocks : Array Block
  /-- The block that roots are added to. -/
  current : Nat := 0
  /-- Trees on the stack, the topmost first. -/
  trees : List Node := []
  /-- Variables on the stack below the trees, the topmost first. -/
  carried : List Nat := []
  /-- Variables that hold the stack on entry to a block, by offset, the lowest value first. -/
  entries : List (Nat × List Nat) := []
  /-- Offsets of the blocks reached. -/
  visited : List Nat := [0]
  vars : Variables
  arguments : List Nat
  locals : List Nat
  /-- Variables of the temporaries, which are numbered in order of first use. -/
  temporaries : Array Nat := #[]

namespace Builder

def start (m : Method) (b : Body) (boundaries : List Nat) : Builder :=
  let argumentTypes := m.argumentTypes
  let vars := ({} : Variables).declareAll .argument 0 argumentTypes
  let vars := vars.declareAll .localVar 0 b.locals
  { method := m
    length := b.instructions.length
    blocks := (boundaries.map fun offset => { offset := offset : Block }).toArray
    vars := vars
    arguments := List.range argumentTypes.length
    locals := (List.range b.locals.length).map (argumentTypes.length + ·) }

def finish (b : Builder) : Routine :=
  ⟨b.method, b.blocks, b.vars, b.arguments, b.locals⟩

def depth (b : Builder) : Nat := b.trees.length + b.carried.length

def clearStack (b : Builder) : Builder := { b with trees := [], carried := [] }

/-- The block that starts at an offset. -/
def blockAt? (b : Builder) (offset : Nat) : Option Nat := b.blocks.findIdx? (·.offset == offset)

def currentOffset (b : Builder) : Nat := (b.blocks[b.current]?.map Block.offset).getD 0

/-- Adds a tree to the current block. -/
def root (b : Builder) (n : Node) : Builder :=
  { b with blocks := b.blocks.modify b.current fun k => { k with roots := k.roots.push n } }

def addRoots (b : Builder) (ns : List Node) : Builder := ns.foldl root b

/-- Goes on in another block, with the stack that was left for it. -/
def enter (b : Builder) (id offset : Nat) : Builder :=
  { b with
    current := id
    visited := offset :: b.visited
    trees := []
    carried := ((b.entries.lookup offset).getD []).reverse }

def deriveType (b : Builder) (n : Node) : Except BuildError (Node × Builder) :=
  match derive b.vars n with
  | .ok (n, vars) => .ok (n, { b with vars := vars })
  | .error e => .error (.type e)

def load (b : Builder) (id offset : Nat) : Except BuildError (Node × Builder) :=
  b.deriveType (.leaf { op := .ldloc, operand := .ref (.variable id), offset := offset })

def store (b : Builder) (id : Nat) (value : Node) (offset : Nat) :
    Except BuildError (Node × Builder) :=
  b.deriveType (.unary { op := .stloc, operand := .ref (.variable id), offset := offset } value)

/-- Takes the topmost value. -/
def pop (b : Builder) (r : Record) : Except BuildError (Node × Builder) :=
  match b.trees with
  | n :: trees => .ok (n, { b with trees := trees })
  | [] =>
    match b.carried with
    | id :: carried => { b with carried := carried }.load id r.offset
    | [] => stackError r .underflow

/-- Takes `count` values and puts them before `values`, the lowest first. -/
def popMany (b : Builder) (r : Record) (values : List Node) :
    (count : Nat) → Except BuildError (List Node × Builder)
  | 0 => .ok (values, b)
  | count + 1 => do
    let (n, b) ← b.pop r
    b.popMany r (n :: values) count

/-- Stores the trees, the lowest first, into fresh variables; the stores become roots. -/
def flushTrees (b : Builder) : List Node → Except BuildError Builder
  | [] => .ok b
  | n :: ns => do
    let (id, vars) := b.vars.addSynthetic
    let (s, b) ← { b with vars := vars }.store id n n.offset
    let b := b.root s
    { b with carried := id :: b.carried }.flushTrees ns

/-- Leaves only variables on the stack. -/
def flush (b : Builder) : Except BuildError Builder :=
  { b with trees := [] }.flushTrees b.trees.reverse

/-- A value on the stack. -/
inductive Entry where
  | carried (id : Nat)
  | tree (node : Node)

/-- The stack, the lowest value first. -/
def stackEntries (b : Builder) : List Entry :=
  b.carried.reverse.map Entry.carried ++ b.trees.reverse.map Entry.tree

/-- Stores values into variables, except where a value is already in its variable. -/
def storeAll (b : Builder) (offset : Nat) (stores : Array Node) :
    List (Entry × Nat) → Except BuildError (Array Node × Builder)
  | [] => .ok (stores, b)
  | (.carried source, id) :: rest =>
    if source = id then b.storeAll offset stores rest
    else do
      let (value, b) ← b.load source offset
      let (s, b) ← b.store id value offset
      b.storeAll offset (stores.push s) rest
  | (.tree value, id) :: rest => do
    let (s, b) ← b.store id value offset
    b.storeAll offset (stores.push s) rest

/-- The variables that hold the stack on entry to the block at `target`. The first way into the
block chooses them: those of `reuse`, if there are as many as values, or fresh ones. -/
def entryVariables (b : Builder) (r : Record) (target : Nat) (reuse : Option (List Nat)) :
    Except BuildError (List Nat × Builder) :=
  let depth := b.depth
  match b.entries.lookup target with
  | some ids =>
    if ids.length = depth then .ok (ids, b)
    else stackError r (.depthMismatch target ids.length depth)
  | none =>
    if 0 < depth ∧ target ∈ b.visited then stackError r (.backwardBranch target)
    else
      let (ids, vars) :=
        match reuse.filter (·.length = depth) with
        | some ids => (ids, b.vars)
        | none => b.vars.addSynthetics depth
      .ok (ids, { b with vars := vars, entries := (target, ids) :: b.entries })

/-- Moves the whole stack into the variables of the block at `target`, and gives the stores. -/
def spill (b : Builder) (r : Record) (target : Nat) (reuse : Option (List Nat)) :
    Except BuildError (List Node × Builder) := do
  let (ids, b) ← b.entryVariables r target reuse
  let (stores, b) ← b.clearStack.storeAll r.offset #[] (b.stackEntries.zip ids)
  return (stores.toList, b)

/-- The operand of a record in terms of variables and blocks. -/
def operand (b : Builder) (r : Record) : Except BuildError (Operand Ref × Builder) :=
  match r.operand with
  | .none => .ok (.none, b)
  | .int32 v => .ok (.int32 v, b)
  | .int64 v => .ok (.int64 v, b)
  | .float32 v => .ok (.float32 v, b)
  | .float64 v => .ok (.float64 v, b)
  | .field f => .ok (.field f, b)
  | .method m => .ok (.method m, b)
  | .type t => .ok (.type t, b)
  | .string s => .ok (.string s, b)
  | .ref (.localVar i) => .ok (.ref (.variable (b.locals.getD i 0)), b)
  | .ref (.argument i) => .ok (.ref (.variable (b.arguments.getD i 0)), b)
  | .ref (.temporary i) =>
    match b.temporaries[i]? with
    | some id => .ok (.ref (.variable id), b)
    | none =>
      let (id, vars) := b.vars.addSynthetic
      .ok (.ref (.variable id),
        { b with vars := vars, temporaries := b.temporaries.push id })
  | .ref (.target t) =>
    match b.blockAt? t with
    | some id => .ok (.ref (.block id), b)
    | none => stackError r (.invalidTarget t)

/-- The element type that an access without a type operand implies. -/
def elementType (indirect : Op) (array : StackType) : Ty :=
  match indirect with
  | .ldind .i1 | .stind .i1 => .i1
  | .ldind .u1 => .u1
  | .ldind .i2 | .stind .i2 => .i2
  | .ldind .u2 => .u2
  | .ldind .i4 | .stind .i4 => .i4
  | .ldind .u4 => .u4
  | .ldind .i8 | .stind .i8 => .i8
  | .ldind .i | .stind .i => .i
  | .ldind .r4 | .stind .r4 => .r4
  | .ldind .r8 | .stind .r8 => .r8
  | _ =>
    match array with
    | .objectRef (.array e) => e
    | _ => .object

/-- An element access is an indirect access to the address of the element. -/
def elementNode (b : Builder) (r : Record) (access : ElementAccess) :
    Except BuildError (Node × Builder) := do
  let (value, b) ←
    if access.isStore then do
      let (n, b) ← b.pop r
      pure (some n, b)
    else pure (none, b)
  let (index, b) ← b.pop r
  let (array, b) ← b.pop r
  let element :=
    match r.operand with
    | .type t => t
    | _ => elementType access.indirect array.type
  let (address, b) ← b.deriveType
    (.binary { op := .ldelema, operand := .type element, offset := r.offset } array index)
  let operand : Operand Ref :=
    match access.indirect with
    | .ldobj | .stobj => .type element
    | _ => .none
  b.deriveType (.plain { op := access.indirect, operand := operand, offset := r.offset }
    (some address) value)

/-- The node of a call and its arguments. A constructor has no receiver on the stack. -/
def callNode (b : Builder) (r : Record) (operand : Operand Ref) :
    Except BuildError (Node × Builder) :=
  match operand with
  | .method m => do
    let count := if r.op = .newobj ∧ m.hasThis then m.argumentCount - 1 else m.argumentCount
    let (args, b) ← b.popMany r [] count
    return (.call { op := r.op, operand := .method m, offset := r.offset } m args, b)
  | _ => .error (.type (.notSupported r.offset r.op .missingMethod))

/-- The node of a record that is no element access, before it has a type. -/
def plainNode (b : Builder) (r : Record) (operand : Operand Ref) :
    Except BuildError (Node × Builder) :=
  let head : Head := { op := r.op, operand := operand, offset := r.offset }
  match r.op.pops with
  | .callee => b.callNode r operand
  | .result =>
    if b.method.returnType = .void then .ok (.leaf head, b)
    else do
      let (value, b) ← b.pop r
      return (.unary head value, b)
  | .fixed count => do
    let (values, b) ← b.popMany r [] count
    return (.plain head values[0]? values[1]?, b)

/-- Notes that an address is taken. -/
def markAddress (b : Builder) (n : Node) : Builder :=
  match n.op, n.varId? with
  | .ldloca, some id | .ldarga, some id => { b with vars := b.vars.markEscaping id }
  | _, _ => b

/-- The node of a record, with its type. -/
def node (b : Builder) (r : Record) : Except BuildError (Node × Builder) :=
  match r.op.elementAccess? with
  | some access => b.elementNode r access
  | none => do
    let (operand, b) ← b.operand r
    let (n, b) ← b.plainNode r operand
    (b.markAddress n).deriveType n

/-- Ends a block with a branch. Where control may also fall through, the next block takes the
stack from the variables of the target. -/
def branch (b : Builder) (r : Record) (n : Node) : Except BuildError Builder :=
  match r.target? with
  | none => stackError r (.invalidTarget r.stop)
  | some target => do
    let (stores, b) ← b.spill r target none
    let (more, b) ←
      if !r.op.endsBlock ∧ r.stop < b.length then
        let ids := (b.entries.lookup target).getD []
        { b with trees := [], carried := ids.reverse }.spill r r.stop (some ids)
      else pure ([], b)
    return (((b.addRoots stores).addRoots more).root n).clearStack

/-- Whether the node of a record leaves a value on the stack. -/
def producesValue (op : Op) (n : Node) : Bool :=
  match op.pushes with
  | .none => false
  | .one | .two => true
  | .callee => n.type.isValue

/-- Keeps a node as a value on the stack, or makes it a root. -/
def place (b : Builder) (r : Record) (n : Node) : Except BuildError Builder :=
  if producesValue r.op n then .ok { b with trees := n :: b.trees }
  else if r.op = .ret ∧ 0 < b.depth then stackError r (.notEmpty b.depth)
  else do
    let b ← b.flush
    return b.root n

/-- Where the next record starts a block, moves the stack into its variables. -/
def fallThrough (b : Builder) (r : Record) : Except BuildError Builder :=
  if 0 < r.size ∧ r.stop < b.length ∧ (b.blockAt? r.stop).isSome then do
    let (stores, b) ← b.spill r r.stop none
    return b.addRoots stores
  else .ok b

/-- Enters the block that starts at a record, if it is not the current one. -/
def enterAt (b : Builder) (offset : Nat) : Builder :=
  if offset = b.currentOffset then b
  else
    match b.blockAt? offset with
    | some id => b.enter id offset
    | none => b

def step (b : Builder) (r : Record) : Except BuildError Builder := do
  let (n, b) ← (b.enterAt r.offset).node r
  if r.op.isBranch then b.branch r n
  else
    let b ← b.place r n
    if r.op.endsBlock then return b.clearStack else b.fallThrough r

end Builder

/-- The tree form of a method. -/
def build (m : Method) (b : Body) (resolver : Resolver) : Except BuildError Routine := do
  let records ← readRecords m b resolver
  let boundaries ← boundariesOf records b.instructions.length
  let builder ← records.foldlM Builder.step (Builder.start m b boundaries)
  return builder.finish

end SpuCompiler.Trees
