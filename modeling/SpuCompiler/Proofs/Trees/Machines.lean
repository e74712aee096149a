import SpuCompiler.Proofs.Transition
import SpuCompiler.Proofs.Trees.Building

/-!
Two machines that give methods a meaning, for any meaning of the single operations. The stack
machine runs the records of a body on an evaluation stack. The tree machine runs the trees of a
routine, block by block, and keeps the synthetic variables in a store. Arguments, locals, memory
and the trace of effects are the user's state, which operations change as they like.
-/

namespace SpuCompiler.Trees

open Metadata Bytecode

inductive Slot where
  | argument (index : Nat)
  | localVar (index : Nat)
  deriving DecidableEq

/-- What operations do: `V` are values and `S` are states. The address of an element depends on
the array and the index alone. -/
structure Meaning (V S : Type) where
  /-- The value that an operation puts on the stack. -/
  value : Op → Operand Slot → List V → S → V × S
  /-- What an operation does that puts nothing on the stack. -/
  effect : Op → Operand Slot → List V → S → S
  /-- Whether a conditional branch is taken. -/
  taken : Op → List V → S → Bool
  element : V → V → V
  value_ldelema : ∀ operand array index s,
    value .ldelema operand [array, index] s = (element array index, s)

structure Outcome (V S : Type) where
  op : Op
  offset : Nat
  values : List V
  state : S

def operandSlot {ρ : Type} (slot : ρ → Option Slot) : Operand ρ → Operand Slot
  | .none => .none
  | .int32 v => .int32 v
  | .int64 v => .int64 v
  | .float32 v => .float32 v
  | .float64 v => .float64 v
  | .field f => .field f
  | .method m => .method m
  | .type t => .type t
  | .string s => .string s
  | .ref p =>
    match slot p with
    | some s => .ref s
    | none => .none

def write {V : Type} (store : Nat → Option V) (id : Nat) (v : V) : Nat → Option V :=
  fun i => if i = id then some v else store i

/-! ## The stack machine -/

namespace StackMachine

/-- The rest of the code, the stack with the lowest value first, the temporaries of duplications
and the user's state. -/
structure Config (V S : Type) where
  rest : List Record
  stack : List V
  temporaries : Nat → Option V
  state : S

def placeSlot : Place → Option Slot
  | .argument i => some (.argument i)
  | .localVar i => some (.localVar i)
  | .temporary _ | .target _ => none

def temporary? (r : Record) : Option Nat :=
  match r.operand with
  | .ref (.temporary i) => some i
  | _ => none

variable {V S : Type}

/-- The operation of a record and its arguments. An element access is an indirect access at the
address of the element. -/
def operation (M : Meaning V S) (r : Record) (args : List V) : Op × Operand Slot × List V :=
  match r.op.elementAccess?, args with
  | some access, array :: index :: values =>
    let operand :=
      match access.indirect with
      | .ldobj | .stobj => operandSlot placeSlot r.operand
      | _ => .none
    (access.indirect, operand, M.element array index :: values)
  | _, _ => (r.op, operandSlot placeSlot r.operand, args)

/-- One record of method `m`, with its arguments off the stack. -/
def exec (M : Meaning V S) (records : List Record) (r : Record) (rest : List Record)
    (below args : List V) (c : Config V S) : Transition (Config V S) (Outcome V S) :=
  let (op, operand, args') := operation M r args
  if r.op.isBranch then
    let state := M.effect op operand args' c.state
    match r.target? with
    | none => .stuck
    | some t =>
      if r.op.endsBlock ∨ M.taken r.op args c.state then
        .next { c with rest := records.dropWhile (·.offset ≠ t), stack := below, state := state }
      else .next { c with rest := rest, stack := below, state := state }
  else if r.op.endsBlock then
    .halt ⟨r.op, r.offset, args, M.effect op operand args' c.state⟩
  else
    match temporary? r, r.op, args with
    | some i, .stloc, [v] =>
      .next { c with rest := rest, stack := below, temporaries := write c.temporaries i v }
    | some i, .ldloc, [] =>
      match c.temporaries i with
      | some v => .next { c with rest := rest, stack := below ++ [v] }
      | none => .stuck
    | some _, _, _ => .stuck
    | none, _, _ =>
      if r.pushCount = 0 then
        .next { c with
          rest := rest
          stack := below
          state := M.effect op operand args' c.state }
      else
        let (v, state) := M.value op operand args' c.state
        .next { c with rest := rest, stack := below ++ [v], state := state }

/-- The machine stops short where the code ends or the stack has too few values. -/
def step (M : Meaning V S) (m : Method) (records : List Record) (c : Config V S) :
    Transition (Config V S) (Outcome V S) :=
  match c.rest with
  | [] => .stuck
  | r :: rest =>
    if c.stack.length < r.popCount m then .stuck
    else
      let keep := c.stack.length - r.popCount m
      exec M records r rest (c.stack.take keep) (c.stack.drop keep) c

def start (records : List Record) (s : S) : Config V S := ⟨records, [], fun _ => none, s⟩

end StackMachine

/-! ## The tree machine -/

namespace TreeMachine

/-- The block and its trees that are left to run, the synthetic variables and the user's state. -/
structure Config (V S : Type) where
  block : Nat
  roots : List Node
  store : Nat → Option V
  state : S

abbrev Roles := Nat → Option (VariableKind × Nat)

def refSlot (roles : Roles) : Ref → Option Slot
  | .block _ => none
  | .variable id =>
    match roles id with
    | some (.argument, i) => some (.argument i)
    | some (.localVar, i) => some (.localVar i)
    | _ => none

def synthetic? (roles : Roles) : Operand Ref → Option Nat
  | .ref (.variable id) =>
    match roles id with
    | some (.synthetic, _) => some id
    | _ => none
  | _ => none

variable {V S : Type}

/-- The value of an operation on the values of its children. A synthetic variable can only be
loaded, and only after it has been written. -/
def apply (M : Meaning V S) (roles : Roles) (store : Nat → Option V) (h : Head) (values : List V)
    (s : S) : Option (V × S) :=
  match synthetic? roles h.operand with
  | some id => if h.op = .ldloc then (store id).map (·, s) else none
  | none => some (M.value h.op (operandSlot (refSlot roles) h.operand) values s)

mutual

/-- The value of a tree: children first, from left to right. -/
def eval (M : Meaning V S) (roles : Roles) (store : Nat → Option V) :
    Node → S → Option (V × S)
  | .leaf h, s => apply M roles store h [] s
  | .unary h l, s => do
    let (a, s) ← eval M roles store l s
    apply M roles store h [a] s
  | .rightOnly h r, s => do
    let (a, s) ← eval M roles store r s
    apply M roles store h [a] s
  | .binary h l r, s => do
    let (a, s) ← eval M roles store l s
    let (b, s) ← eval M roles store r s
    apply M roles store h [a, b] s
  | .call h _ args, s => do
    let (values, s) ← evalList M roles store args s
    apply M roles store h values s

def evalList (M : Meaning V S) (roles : Roles) (store : Nat → Option V) :
    List Node → S → Option (List V × S)
  | [], s => some ([], s)
  | n :: ns, s => do
    let (v, s) ← eval M roles store n s
    let (vs, s) ← evalList M roles store ns s
    return (v :: vs, s)

end

def exec (M : Meaning V S) (routine : Routine) (n : Node) (values : List V)
    (c : Config V S) : Transition (Config V S) (Outcome V S) :=
  let state := M.effect n.op (operandSlot (refSlot routine.vars.role) n.operand) values c.state
  if n.op.isBranch then
    if n.op.endsBlock ∨ M.taken n.op values c.state then
      match n.blockId? with
      | none => .stuck
      | some k =>
        match routine.blocks[k]? with
        | some block => .next { c with block := k, roots := block.roots.toList, state := state }
        | none => .stuck
    else .next { c with state := state }
  else if n.op.endsBlock then .halt ⟨n.op, n.offset, values, state⟩
  else
    match synthetic? routine.vars.role n.operand, n.op, values with
    | some id, .stloc, [v] => .next { c with store := write c.store id v }
    | some _, _, _ => .stuck
    | none, _, _ => .next { c with state := state }

/-- After its last tree a block passes control to the next block. -/
def step (M : Meaning V S) (routine : Routine) (c : Config V S) :
    Transition (Config V S) (Outcome V S) :=
  match c.roots with
  | [] =>
    match routine.blocks[c.block + 1]? with
    | some block => .next { c with block := c.block + 1, roots := block.roots.toList }
    | none => .stuck
  | n :: roots =>
    match evalList M routine.vars.role c.store n.children c.state with
    | none => .stuck
    | some (values, s) => exec M routine n values { c with roots := roots, state := s }

def start (routine : Routine) (s : S) : Config V S :=
  ⟨0, ((routine.blocks[0]?).map (·.roots.toList)).getD [], fun _ => none, s⟩

end TreeMachine

end SpuCompiler.Trees
