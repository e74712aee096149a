import SpuCompiler.Proofs.Bytecode.Encodings
import SpuCompiler.Proofs.Trees.Building

/-!
Trees of relocated code. Where instructions stand, in what form and under what name, is of no
account for the trees: the builder only compares offsets, so records that are moved by an
increasing function give the same trees with the offsets moved, or fail where the others fail.
Any two encodings of the same instructions are moved from one numbering of them, so they have
the same trees.
-/

namespace SpuCompiler.Trees

open Metadata Bytecode

/-! ## Nodes -/

def Head.relocate (φ : Nat → Nat) (h : Head) : Head := { h with offset := φ h.offset }

namespace Node

mutual

def relocate (φ : Nat → Nat) : Node → Node
  | .leaf h => .leaf (h.relocate φ)
  | .unary h l => .unary (h.relocate φ) (l.relocate φ)
  | .rightOnly h r => .rightOnly (h.relocate φ) (r.relocate φ)
  | .binary h l r => .binary (h.relocate φ) (l.relocate φ) (r.relocate φ)
  | .call h m args => .call (h.relocate φ) m (relocateAll φ args)

def relocateAll (φ : Nat → Nat) : List Node → List Node
  | [] => []
  | n :: ns => n.relocate φ :: relocateAll φ ns

end

variable {φ : Nat → Nat}

@[simp] theorem relocateAll_eq_map (ns : List Node) : relocateAll φ ns = ns.map (relocate φ) := by
  induction ns with
  | nil => rfl
  | cons n ns ih => rw [relocateAll, ih, List.map_cons]

@[simp] theorem op_relocate (n : Node) : (n.relocate φ).op = n.op := by
  cases n <;> rfl

@[simp] theorem operand_relocate (n : Node) : (n.relocate φ).operand = n.operand := by
  cases n <;> rfl

@[simp] theorem type_relocate (n : Node) : (n.relocate φ).type = n.type := by
  cases n <;> rfl

@[simp] theorem offset_relocate (n : Node) : (n.relocate φ).offset = φ n.offset := by
  cases n <;> rfl

@[simp] theorem callee?_relocate (n : Node) : (n.relocate φ).callee? = n.callee? := by
  cases n <;> rfl

@[simp] theorem varId?_relocate (n : Node) : (n.relocate φ).varId? = n.varId? := by
  simp [varId?]

@[simp] theorem left?_relocate (n : Node) : (n.relocate φ).left? = n.left?.map (relocate φ) := by
  cases n with
  | call h m args => simp [relocate, left?]
  | _ => rfl

@[simp] theorem right?_relocate (n : Node) : (n.relocate φ).right? = n.right?.map (relocate φ) := by
  cases n with
  | call h m args => simp [relocate, right?]
  | _ => rfl

theorem withType_relocate (n : Node) (t : StackType) :
    (n.relocate φ).withType t = (n.withType t).relocate φ := by
  cases n <;> rfl

theorem plain_relocate (h : Head) (l r : Option Node) :
    plain (h.relocate φ) (l.map (relocate φ)) (r.map (relocate φ)) = (plain h l r).relocate φ := by
  cases l <;> cases r <;> rfl

/-! ### Types -/

theorem leftType_relocate (n : Node) : Agree id n.leftType (n.relocate φ).leftType := by
  unfold leftType
  rw [left?_relocate]
  cases n.left? with
  | none => exact .error _ _
  | some l =>
    simp only [Option.map_some, type_relocate]
    exact .ok _

theorem rightType_relocate (n : Node) : Agree id n.rightType (n.relocate φ).rightType := by
  unfold rightType
  rw [right?_relocate]
  cases n.right? with
  | none => exact .error _ _
  | some l =>
    simp only [Option.map_some, type_relocate]
    exact .ok _

theorem variableOf_relocate (vars : Variables) (n : Node) :
    Agree id (n.variableOf vars) ((n.relocate φ).variableOf vars) := by
  unfold variableOf
  rw [varId?_relocate]
  split
  · exact .ok _
  · exact .error _ _

theorem typeOperand_relocate (n : Node) : Agree id n.typeOperand (n.relocate φ).typeOperand := by
  unfold typeOperand
  rw [operand_relocate]
  split
  · exact .ok _
  · exact .error _ _

theorem fieldOperand_relocate (n : Node) : Agree id n.fieldOperand (n.relocate φ).fieldOperand := by
  unfold fieldOperand
  rw [operand_relocate]
  split
  · exact .ok _
  · exact .error _ _

end Node

variable {φ : Nat → Nat}

theorem callType_relocate (n : Node) : Agree id (callType n) (callType (n.relocate φ)) := by
  unfold callType
  rw [Node.callee?_relocate, Node.op_relocate]
  split
  · exact .error _ _
  · split
    · split
      · exact .ok _
      · exact .ok _
      · exact .error _ _
    · exact .ok _

/-- The type of a node depends on no offset. -/
theorem typeOf_relocate (vars : Variables) (n : Node) :
    Agree id (typeOf vars n) (typeOf vars (n.relocate φ)) := by
  unfold typeOf
  rw [Node.op_relocate]
  cases n.op with
  | leave | dup | ldelem | ldelemAny | stelem | stelemAny | box | unboxAny | castclass | isinst
  | ldtoken | convOvf | convOvfUn => exact .error _ _
  | br | brfalse | brtrue | branchCompare | switch | throw | breakpoint | nop | pop | stind | stobj
  | stfld | stsfld | initobj | ldnull | ldc | sizeof | ldstr | ldlen => exact .ok _
  | ret =>
    have htype : ((n.relocate φ).left?.map Node.type).getD .void =
        (n.left?.map Node.type).getD .void := by
      cases hl : n.left? <;> simp [hl]
    dsimp only
    rw [htype]
    exact .ok _
  | call | callvirt | newobj => exact callType_relocate n
  | stloc | starg =>
    exact (n.variableOf_relocate vars).bind fun _ => n.leftType_relocate.bind fun _ => .ok _
  | ldloc | ldarg | ldloca | ldarga =>
    refine (n.variableOf_relocate vars).bind fun v => ?_
    dsimp only [id]
    split
    · exact .ok _
    · exact .error _ _
  | ldind a =>
    cases a with
    | ref => exact n.leftType_relocate.bind fun _ => .ok _
    | _ => exact .ok _
  | arith | shift | compare =>
    refine n.leftType_relocate.bind fun l => n.rightType_relocate.bind fun r => ?_
    dsimp only [id]
    split
    · exact .ok _
    · exact .error _ _
  | neg | not | conv =>
    refine n.leftType_relocate.bind fun t => ?_
    dsimp only [id]
    split
    · exact .ok _
    · exact .error _ _
  | ldobj | newarr | ldelema => exact n.typeOperand_relocate.bind fun _ => .ok _
  | ldfld | ldsfld | ldflda | ldsflda => exact n.fieldOperand_relocate.bind fun _ => .ok _

theorem afterStore_relocate (vars : Variables) (n : Node) :
    afterStore vars (n.relocate φ) = afterStore vars n := by
  unfold afterStore
  rw [Node.op_relocate, Node.varId?_relocate, Node.left?_relocate]
  cases n.op <;> cases n.varId? <;> cases n.left? <;> simp

theorem derive_relocate (vars : Variables) (n : Node) :
    Agree (Prod.map (Node.relocate φ) id) (derive vars n) (derive vars (n.relocate φ)) := by
  unfold derive
  rw [afterStore_relocate]
  refine (typeOf_relocate vars n).bind fun t => (Agree.self _).bind fun vars' => ?_
  rw [Node.withType_relocate]
  exact .ok (n.withType t, vars')

/-! ## Builders -/

def Block.relocate (φ : Nat → Nat) (b : Block) : Block :=
  { offset := φ b.offset, roots := b.roots.map (Node.relocate φ) }

def Routine.relocate (φ : Nat → Nat) (r : Routine) : Routine :=
  { r with blocks := r.blocks.map (Block.relocate φ) }

namespace Builder

def relocate (φ : Nat → Nat) (b : Builder) : Builder :=
  { b with
    length := φ b.length
    blocks := b.blocks.map (Block.relocate φ)
    trees := b.trees.map (Node.relocate φ)
    entries := b.entries.map (Prod.map φ id)
    visited := b.visited.map φ }

abbrev relocateBoth (φ : Nat → Nat) : Node × Builder → Node × Builder :=
  Prod.map (Node.relocate φ) (relocate φ)

@[simp] theorem depth_relocate (b : Builder) : (b.relocate φ).depth = b.depth := by
  simp [depth, relocate]

section Trees

variable (b : Builder)

theorem clearStack_relocate : (b.relocate φ).clearStack = b.clearStack.relocate φ := rfl

theorem finish_relocate : (b.relocate φ).finish = b.finish.relocate φ := rfl

theorem root_relocate (n : Node) : (b.relocate φ).root (n.relocate φ) = (b.root n).relocate φ := by
  have hblocks : (b.blocks.map (Block.relocate φ)).modify b.current
      (fun k => { k with roots := k.roots.push (n.relocate φ) }) =
      (b.blocks.modify b.current fun k => { k with roots := k.roots.push n }).map
        (Block.relocate φ) := by
    ext i
    · simp
    · simp only [Array.getElem_modify, Array.getElem_map]
      split <;> simp [Block.relocate]
  simp only [root, relocate, hblocks]

theorem addRoots_relocate (ns : List Node) :
    (b.relocate φ).addRoots (ns.map (Node.relocate φ)) = (b.addRoots ns).relocate φ := by
  induction ns generalizing b with
  | nil => rfl
  | cons n ns ih =>
    have hnext := ih (b.root n)
    rwa [← root_relocate] at hnext

theorem deriveType_relocate (n : Node) :
    Agree (relocateBoth φ) (b.deriveType n) ((b.relocate φ).deriveType (n.relocate φ)) := by
  have hderive := derive_relocate (φ := φ) b.vars n
  have hvars : (b.relocate φ).vars = b.vars := rfl
  unfold deriveType
  rw [hvars]
  generalize derive b.vars n = x at hderive
  generalize derive b.vars (n.relocate φ) = y at hderive
  cases hderive with
  | ok a => exact .ok (a.1, { b with vars := a.2 })
  | error e e' => exact .error _ _

theorem load_relocate (id offset : Nat) :
    Agree (relocateBoth φ) (b.load id offset) ((b.relocate φ).load id (φ offset)) :=
  deriveType_relocate b _

theorem store_relocate (id : Nat) (value : Node) (offset : Nat) :
    Agree (relocateBoth φ) (b.store id value offset)
      ((b.relocate φ).store id (value.relocate φ) (φ offset)) :=
  deriveType_relocate b (.unary _ value)

/-! ### Values on the stack -/

theorem flushTrees_relocate (ns : List Node) :
    Agree (relocate φ) (b.flushTrees ns)
      ((b.relocate φ).flushTrees (ns.map (Node.relocate φ))) := by
  induction ns generalizing b with
  | nil => exact .ok b
  | cons n ns ih =>
    simp only [List.map_cons, flushTrees, Node.offset_relocate]
    refine (store_relocate { b with vars := b.vars.addSynthetic.2 } b.vars.addSynthetic.1 n
      n.offset).bindPair fun s b' => ?_
    dsimp only
    rw [root_relocate]
    exact ih { b'.root s with carried := b.vars.addSynthetic.1 :: (b'.root s).carried }

theorem flush_relocate : Agree (relocate φ) b.flush (b.relocate φ).flush := by
  have htrees : (b.relocate φ).trees.reverse = b.trees.reverse.map (Node.relocate φ) := by
    rw [List.map_reverse]
    rfl
  unfold flush
  rw [htrees]
  exact flushTrees_relocate { b with trees := [] } b.trees.reverse

def Entry.relocate (φ : Nat → Nat) : Entry → Entry
  | .carried id => .carried id
  | .tree n => .tree (n.relocate φ)

theorem stackEntries_relocate :
    (b.relocate φ).stackEntries = b.stackEntries.map (Entry.relocate φ) := by
  simp only [stackEntries, relocate, List.map_append, List.map_map, List.map_reverse]
  rfl

theorem storeAll_relocate (offset : Nat) (stores : Array Node)
    (values : List (Entry × Nat)) :
    Agree (Prod.map (Array.map (Node.relocate φ)) (relocate φ)) (b.storeAll offset stores values)
      ((b.relocate φ).storeAll (φ offset) (stores.map (Node.relocate φ))
        (values.map (Prod.map (Entry.relocate φ) id))) := by
  induction values generalizing b stores with
  | nil => exact .ok (stores, b)
  | cons value values ih =>
    have hpush : ∀ s : Node, (stores.map (Node.relocate φ)).push (s.relocate φ) =
        (stores.push s).map (Node.relocate φ) := fun s => Array.map_push.symm
    obtain ⟨entry, place⟩ := value
    cases entry with
    | carried source =>
      simp only [List.map_cons, Prod.map_apply, id_eq, Entry.relocate, storeAll]
      split
      · exact ih b stores
      · refine (load_relocate b source offset).bindPair fun n b => ?_
        refine (store_relocate b place n offset).bindPair fun s b => ?_
        dsimp only
        rw [hpush]
        exact ih b (stores.push s)
    | tree n =>
      simp only [List.map_cons, Prod.map_apply, id_eq, Entry.relocate, storeAll]
      refine (store_relocate b place n offset).bindPair fun s b => ?_
      dsimp only
      rw [hpush]
      exact ih b (stores.push s)

theorem markAddress_relocate (n : Node) :
    (b.relocate φ).markAddress (n.relocate φ) = (b.markAddress n).relocate φ := by
  unfold markAddress
  rw [Node.op_relocate, Node.varId?_relocate]
  split <;> rfl

end Trees

section Records

variable {r r' : Record} (hr : r.Moved φ r') (b : Builder)

include hr

theorem pop_relocate : Agree (relocateBoth φ) (b.pop r) ((b.relocate φ).pop r') := by
  have htrees' : (b.relocate φ).trees = b.trees.map (Node.relocate φ) := rfl
  have hcarried' : (b.relocate φ).carried = b.carried := rfl
  cases htrees : b.trees with
  | cons n trees =>
    simp only [pop, htrees, htrees', List.map_cons]
    exact .ok (n, { b with trees := trees })
  | nil =>
    cases hcarried : b.carried with
    | cons id carried =>
      simp only [pop, htrees, htrees', List.map_nil, hcarried, hcarried', hr.offset]
      exact load_relocate { b with trees := [], carried := carried } id r.offset
    | nil =>
      simp only [pop, htrees, htrees', List.map_nil, hcarried, hcarried']
      exact .error _ _

theorem popMany_relocate (values : List Node) (count : Nat) :
    Agree (Prod.map (List.map (Node.relocate φ)) (relocate φ)) (b.popMany r values count)
      ((b.relocate φ).popMany r' (values.map (Node.relocate φ)) count) := by
  induction count generalizing b values with
  | zero => exact .ok (values, b)
  | succ count ih => exact (pop_relocate hr b).bindPair fun n b => ih b (n :: values)

theorem elementOf_relocate (access : ElementAccess) (value : Option Node) :
    Agree (relocateBoth φ) (b.elementOf r access value)
      ((b.relocate φ).elementOf r' access (value.map (Node.relocate φ))) := by
  have helement : ∀ array : Node,
      accessedType r' access (array.relocate φ) = accessedType r access array := by
    intro array
    unfold accessedType
    rw [hr.operand, Node.type_relocate]
    cases r.operand <;> rfl
  refine (pop_relocate hr b).bindPair fun index b => ?_
  refine (pop_relocate hr b).bindPair fun array b => ?_
  dsimp only
  rw [helement, hr.offset]
  refine (deriveType_relocate b (.binary _ array index)).bindPair fun address b => ?_
  dsimp only
  have hnode := deriveType_relocate (φ := φ) b (.plain
    { op := access.indirect
      operand := indirectOperand access (accessedType r access array)
      offset := r.offset } (some address) value)
  rwa [← Node.plain_relocate] at hnode

theorem elementNode_relocate (access : ElementAccess) :
    Agree (relocateBoth φ) (b.elementNode r access) ((b.relocate φ).elementNode r' access) := by
  rw [elementNode_eq, elementNode_eq]
  split
  · exact (pop_relocate hr b).bindPair fun n b => elementOf_relocate hr b access (some n)
  · exact elementOf_relocate hr b access none

theorem callNode_relocate (operand : Operand Ref) :
    Agree (relocateBoth φ) (b.callNode r operand) ((b.relocate φ).callNode r' operand) := by
  unfold callNode
  rw [hr.op, hr.offset]
  split
  · rename_i m
    refine (popMany_relocate hr b [] _).bindPair fun args b => ?_
    dsimp only
    rw [← Node.relocateAll_eq_map]
    exact .ok (Node.call { op := r.op, operand := .method m, offset := r.offset } m args, b)
  · exact .error _ _

theorem plainNode_relocate (operand : Operand Ref) :
    Agree (relocateBoth φ) (b.plainNode r operand) ((b.relocate φ).plainNode r' operand) := by
  have hmethod : (b.relocate φ).method = b.method := rfl
  unfold plainNode
  dsimp only
  rw [hr.op, hr.offset, hmethod]
  split
  · exact callNode_relocate hr b operand
  · split
    · exact .ok (Node.leaf { op := r.op, operand := operand, offset := r.offset }, b)
    · exact (pop_relocate hr b).bindPair fun value b =>
        .ok (Node.unary { op := r.op, operand := operand, offset := r.offset } value, b)
  · refine (popMany_relocate hr b [] _).bindPair fun values b => ?_
    dsimp only
    rw [List.getElem?_map, List.getElem?_map]
    have hplain := Node.plain_relocate (φ := φ)
      { op := r.op, operand := operand, offset := r.offset } values[0]? values[1]?
    dsimp only [Head.relocate] at hplain
    rw [hplain]
    exact .ok (_, b)

theorem place_relocate (n : Node) :
    Agree (relocate φ) (b.place r n) ((b.relocate φ).place r' (n.relocate φ)) := by
  have hproduces : producesValue r'.op (n.relocate φ) = producesValue r.op n := by
    rw [hr.op]
    simp [producesValue]
  unfold place
  rw [hproduces, hr.op, depth_relocate]
  split
  · exact .ok { b with trees := n :: b.trees }
  · split
    · exact .error _ _
    · refine (flush_relocate b).bind fun b => ?_
      rw [root_relocate]
      exact .ok _

end Records

/-! ### Blocks -/

section Blocks

variable (hφ : StrictMono φ)

include hφ

theorem blockAt?_relocate (b : Builder) (offset : Nat) :
    (b.relocate φ).blockAt? (φ offset) = b.blockAt? offset := by
  unfold blockAt?
  have hblocks : (b.relocate φ).blocks = b.blocks.map (Block.relocate φ) := rfl
  rw [hblocks, Array.findIdx?_map]
  congr 1
  funext k
  simp [Block.relocate, hφ.injective.eq_iff]

theorem lookup_relocate (entries : List (Nat × List Nat)) (offset : Nat) :
    (entries.map (Prod.map φ id)).lookup (φ offset) = entries.lookup offset := by
  induction entries with
  | nil => rfl
  | cons e entries ih =>
    obtain ⟨k, ids⟩ := e
    have hsame : (φ offset == φ k) = (offset == k) := by
      rw [Bool.eq_iff_iff, beq_iff_eq, beq_iff_eq, hφ.injective.eq_iff]
    simp only [List.map_cons, Prod.map_apply, List.lookup_cons, id_eq, ih, hsame]

theorem enter_relocate (b : Builder) (place offset : Nat) :
    (b.relocate φ).enter place (φ offset) = (b.enter place offset).relocate φ := by
  have hentries : (b.relocate φ).entries = b.entries.map (Prod.map φ id) := rfl
  unfold enter
  rw [hentries, lookup_relocate hφ]
  rfl

theorem enterAt_relocate (hzero : φ 0 = 0) (b : Builder) (offset : Nat) :
    (b.relocate φ).enterAt (φ offset) = (b.enterAt offset).relocate φ := by
  have hcurrent : (b.relocate φ).currentOffset = φ b.currentOffset := by
    unfold currentOffset
    have hblock : (b.relocate φ).blocks[b.current]? = b.blocks[b.current]?.map (Block.relocate φ) :=
      Array.getElem?_map
    change ((b.relocate φ).blocks[b.current]?.map Block.offset).getD 0 = _
    rw [hblock]
    cases b.blocks[b.current]? with
    -- without a current block the offset is zero, which `φ` has to keep
    | none => exact hzero.symm
    | some k => rfl
  unfold enterAt
  simp only [hcurrent, blockAt?_relocate hφ, hφ.injective.eq_iff]
  split
  · rfl
  · split
    · exact enter_relocate hφ b _ offset
    · rfl

theorem entryVariables_relocate (r r' : Record) (b : Builder) (target : Nat)
    (reuse : Option (List Nat)) : Agree (Prod.map id (relocate φ)) (b.entryVariables r target reuse)
      ((b.relocate φ).entryVariables r' (φ target) reuse) := by
  have hentries : (b.relocate φ).entries = b.entries.map (Prod.map φ id) := rfl
  have hvisited : φ target ∈ (b.relocate φ).visited ↔ target ∈ b.visited :=
    List.mem_map_of_injective hφ.injective
  unfold entryVariables
  simp only [depth_relocate, hentries, lookup_relocate hφ, hvisited]
  split
  · split
    · exact .ok _
    · exact .error _ _
  · split
    · exact .error _ _
    · exact .ok _

section Records

variable {r r' : Record} (hr : r.Moved φ r') (b : Builder)

include hr

theorem spill_relocate (target : Nat) (reuse : Option (List Nat)) :
    Agree (Prod.map (List.map (Node.relocate φ)) (relocate φ)) (b.spill r target reuse)
      ((b.relocate φ).spill r' (φ target) reuse) := by
  refine (entryVariables_relocate hφ r r' b target reuse).bindPair fun ids b => ?_
  dsimp only [id]
  have hstores := storeAll_relocate (φ := φ) b.clearStack r.offset #[] (b.stackEntries.zip ids)
  rw [Array.map_empty, ← clearStack_relocate] at hstores
  rw [stackEntries_relocate, List.zip_map_left, hr.offset]
  refine hstores.bindPair fun stores b => ?_
  dsimp only
  rw [Array.toList_map]
  exact .ok (stores.toList, b)

theorem operand_relocate :
    Agree (Prod.map id (relocate φ)) (b.operand r) ((b.relocate φ).operand r') := by
  unfold operand
  rw [hr.operand]
  cases r.operand with
  | ref p =>
    cases p with
    | localVar i => exact .ok (_, b)
    | argument i => exact .ok (_, b)
    | temporary i =>
      have htemporaries : (b.relocate φ).temporaries = b.temporaries := rfl
      simp only [Operand.map, Place.relocate, htemporaries]
      split
      · exact .ok (_, b)
      · exact .ok (_, { b with vars := _, temporaries := _ })
    | target t =>
      simp only [Operand.map, Place.relocate, blockAt?_relocate hφ]
      split
      · exact .ok (_, b)
      · exact .error _ _
  | _ => exact .ok (_, b)

theorem node_relocate : Agree (relocateBoth φ) (b.node r) ((b.relocate φ).node r') := by
  unfold node
  rw [hr.op]
  split
  · exact elementNode_relocate hr b _
  · refine (operand_relocate hφ hr b).bindPair fun operand b => ?_
    refine (plainNode_relocate hr b operand).bindPair fun n b => ?_
    dsimp only
    rw [markAddress_relocate]
    exact deriveType_relocate (b.markAddress n) n

/-! ### Steps -/

theorem branch_relocate (n : Node) :
    Agree (relocate φ) (b.branch r n) ((b.relocate φ).branch r' (n.relocate φ)) := by
  unfold branch
  rw [hr.target?]
  cases r.target? with
  | none => exact .error _ _
  | some target =>
    refine (spill_relocate hφ hr b target none).bindPair fun stores b => ?_
    have hlength : (b.relocate φ).length = φ b.length := rfl
    have hentries : (b.relocate φ).entries = b.entries.map (Prod.map φ id) := rfl
    have hend : ∀ (more : List Node) (b : Builder), Agree (ε := BuildError) (relocate φ)
        (.ok (((b.addRoots stores).addRoots more).root n).clearStack)
        (.ok ((((b.relocate φ).addRoots (stores.map (Node.relocate φ))).addRoots
          (more.map (Node.relocate φ))).root (n.relocate φ)).clearStack) := by
      intro more b
      rw [addRoots_relocate, addRoots_relocate, root_relocate, clearStack_relocate]
      exact .ok _
    simp only [hr.op, hr.stop, hlength, hφ.lt_iff_lt, hentries, lookup_relocate hφ]
    split
    · exact (spill_relocate hφ hr (b.onTarget target) r.stop _).bindPair hend
    · exact hend [] b

theorem fallThrough_relocate :
    Agree (relocate φ) (b.fallThrough r) ((b.relocate φ).fallThrough r') := by
  have hlength : (b.relocate φ).length = φ b.length := rfl
  unfold fallThrough
  simp only [hr.size, hr.stop, hlength, hφ.lt_iff_lt, blockAt?_relocate hφ]
  split
  · refine (spill_relocate hφ hr b r.stop none).bindPair fun stores b => ?_
    dsimp only
    rw [addRoots_relocate]
    exact .ok _
  · exact .ok b

theorem step_relocate (hzero : φ 0 = 0) (b : Builder) :
    Agree (relocate φ) (b.step r) ((b.relocate φ).step r') := by
  unfold step
  rw [hr.offset, enterAt_relocate hφ hzero]
  refine (node_relocate hφ hr (b.enterAt r.offset)).bindPair fun n b => ?_
  dsimp only
  rw [hr.op]
  split
  · exact branch_relocate hφ hr b n
  · refine (place_relocate hr b n).bind fun b => ?_
    split
    · exact .ok b.clearStack
    · exact fallThrough_relocate hφ hr b

end Records

end Blocks

end Builder

/-! ## Whole bodies -/

theorem insertSorted_map (hφ : StrictMono φ) (n : Nat) (ns : List Nat) :
    insertSorted (φ n) (ns.map φ) = (insertSorted n ns).map φ := by
  induction ns with
  | nil => rfl
  | cons m ns ih =>
    simp only [List.map_cons, insertSorted, hφ.lt_iff_lt, hφ.injective.eq_iff, ih]
    split
    · rfl
    · split <;> rfl

theorem any_offset_of_moved (hφ : StrictMono φ) {rs rs' : List Record}
    (h : List.Forall₂ (Record.Moved φ) rs rs') (target : Nat) :
    rs'.any (·.offset == φ target) = rs.any (·.offset == target) := by
  induction h with
  | nil => rfl
  | @cons r r' _ _ hr _ ih =>
    have hsame : (φ r.offset == φ target) = (r.offset == target) := by
      rw [Bool.eq_iff_iff, beq_iff_eq, beq_iff_eq, hφ.injective.eq_iff]
    rw [List.any_cons, List.any_cons, ih, hr.offset, hsame]

theorem addBoundaries_relocate (hφ : StrictMono φ) {rs rs' : List Record}
    (hany : ∀ target, rs'.any (·.offset == φ target) = rs.any (·.offset == target)) {r r' : Record}
    (htarget : r'.target? = r.target?.map φ) (hbranch : r'.op.isBranch = r.op.isBranch)
    (hstop : r'.stop = φ r.stop) (length : Nat) (boundaries : List Nat) :
    Agree (List.map φ) (addBoundaries rs length boundaries r)
      (addBoundaries rs' (φ length) (boundaries.map φ) r') := by
  unfold addBoundaries
  rw [htarget]
  cases r.target? with
  | none => exact .ok _
  | some target =>
    simp only [Option.map_some, hbranch, hany, hstop, hφ.lt_iff_lt]
    split
    · split
      · rw [insertSorted_map hφ, insertSorted_map hφ]
        split
        · exact .ok _
        · exact .ok _
      · exact .error _ _
    · exact .ok _

theorem boundariesOf_relocate (hφ : StrictMono φ) (hzero : φ 0 = 0) {rs rs' : List Record}
    (h : List.Forall₂ (Record.Moved φ) rs rs') (length : Nat) :
    Agree (List.map φ) (boundariesOf rs length) (boundariesOf rs' (φ length)) := by
  have hstart : [0] = [0].map φ := by rw [List.map_cons, hzero, List.map_nil]
  unfold boundariesOf
  nth_rewrite 2 [hstart]
  refine Agree.foldlM ?_ h [0]
  intro boundaries r r' hr
  exact addBoundaries_relocate hφ (any_offset_of_moved hφ h) hr.target? (by rw [hr.op]) hr.stop length
    boundaries

def buildRecords (m : Method) (b : Body) (records : List Record) : Except BuildError Routine := do
  let boundaries ← boundariesOf records b.instructions.length
  let builder ← records.foldlM Builder.step (Builder.start m b boundaries)
  return builder.finish

theorem build_eq (m : Method) (b : Body) (resolver : Resolver) :
    build m b resolver = readRecords m b resolver >>= buildRecords m b := rfl

theorem start_relocate (hzero : φ 0 = 0) (m : Method) {b b' : Body} (hlocals : b'.locals = b.locals)
    (hlength : b'.instructions.length = φ b.instructions.length) (boundaries : List Nat) :
    Builder.start m b' (boundaries.map φ) = (Builder.start m b boundaries).relocate φ := by
  have hblock : (fun offset => ({ offset := offset } : Block)) ∘ φ
      = Block.relocate φ ∘ fun offset => { offset := offset } := by
    funext offset
    simp [Block.relocate]
  simp only [Builder.start, Builder.relocate, hlocals, hlength, List.map_map, List.map_toArray,
    hblock, List.map_cons, List.map_nil, hzero]

/-- Moved records give the moved routine. -/
theorem buildRecords_relocate (hφ : StrictMono φ) (hzero : φ 0 = 0) (m : Method) {b b' : Body}
    (hlocals : b'.locals = b.locals) (hlength : b'.instructions.length = φ b.instructions.length)
    {rs rs' : List Record} (h : List.Forall₂ (Record.Moved φ) rs rs') :
    Agree (Routine.relocate φ) (buildRecords m b rs) (buildRecords m b' rs') := by
  unfold buildRecords
  rw [hlength]
  refine (boundariesOf_relocate hφ hzero h _).bind fun boundaries => ?_
  rw [start_relocate hzero m hlocals hlength]
  refine (Agree.foldlM (fun b r r' hr => b.step_relocate hφ hr hzero) h _).bind fun builder => ?_
  rw [Builder.finish_relocate]
  exact .ok _

/-! ## Encodings -/

def numberedBody (is : List Instruction) (locals : List Ty) : Body :=
  { code := List.replicate is.length 0, locals := locals }

/-- The records of instructions, with the number of an instruction as its offset. -/
def numberedRecords? (m : Method) (is : List Instruction) (locals : List Ty) (resolver : Resolver) :
    Option (List Record) := do
  let rs ← records? (Scope.of m (numberedBody is locals) resolver) 0 is
  if nextTemporaryAll 0 rs ≤ Reader.temporaryLimit then some (openAll 0 rs) else none

def buildNumbered? (m : Method) (is : List Instruction) (locals : List Ty) (resolver : Resolver) :
    Option Routine := do
  let rs ← numberedRecords? m is locals resolver
  (buildRecords m (numberedBody is locals) rs).toOption

section Encodings

variable {m : Method} {b : Body} {resolver : Resolver} {is : List Instruction} {fs : List Form}
  (h : Encodes fs is b.instructions)

include h

theorem length_of_encodes :
    b.instructions.length = startOf fs (numberedBody is b.locals).instructions.length := by
  have hnumbered : (numberedBody is b.locals).instructions.length = fs.length := by
    simp [numberedBody, Body.instructions, h.fits.length_eq]
  rw [hnumbered, startOf_length, h.bytes_eq]

theorem scope_of_encodes : Scope.of m b resolver =
    (Scope.of m (numberedBody is b.locals) resolver).relocate (startOf fs) := by
  simp only [Scope.of, Scope.relocate, length_of_encodes h]
  rfl

theorem readRecords_of_numbered {rs : List Record}
    (hrs : numberedRecords? m is b.locals resolver = some rs) :
    ∃ rs', readRecords m b resolver = .ok rs' ∧
      List.Forall₂ (Record.Moved (startOf fs)) rs rs' := by
  obtain ⟨is', his', hrs⟩ := Option.bind_eq_some_iff.mp hrs
  obtain ⟨hlimit, hrs⟩ := Option.ite_none_right_eq_some.mp hrs
  cases hrs
  obtain ⟨rs', hdecodes, hmoved⟩ :=
    exists_decodes (startOf_strictMono fs) h.fits (follows_startOf fs) his'
  rw [startOf_zero, ← h.bytes_eq, ← scope_of_encodes h] at hdecodes
  refine ⟨openAll 0 rs', mapError_eq_ok.mpr ?_, openAll_moved hmoved 0⟩
  rw [Reader.readAll_eq_ok_iff]
  exact ⟨rs', hdecodes, by rwa [nextTemporaryAll_moved hmoved], rfl⟩

theorem exists_numberedRecords? {rs' : List Record} (hread : readRecords m b resolver = .ok rs') :
    ∃ rs, numberedRecords? m is b.locals resolver = some rs := by
  obtain ⟨is', hdecodes, hlimit, rfl⟩ :=
    (Reader.readAll_eq_ok_iff ..).mp (mapError_eq_ok.mp hread)
  rw [scope_of_encodes h, h.bytes_eq] at hdecodes
  have hcode := startOf_zero fs ▸ hdecodes
  obtain ⟨rs, hrs⟩ := exists_records? (startOf_strictMono fs) h.fits (follows_startOf fs) hcode
  -- what was read is what these instructions are moved to, so the limit holds for them as well
  obtain ⟨rs', hdecodes', hmoved⟩ :=
    exists_decodes (startOf_strictMono fs) h.fits (follows_startOf fs) hrs
  obtain rfl := hdecodes'.unique hcode
  rw [nextTemporaryAll_moved hmoved] at hlimit
  exact ⟨openAll 0 rs, by simp [numberedRecords?, hrs, hlimit]⟩

variable (m resolver) in
/-- An encoded body has the trees of its instructions, moved to the offsets of their forms. -/
theorem toOption_build : (build m b resolver).toOption =
    (buildNumbered? m is b.locals resolver).map (Routine.relocate (startOf fs)) := by
  rw [build_eq, buildNumbered?]
  cases hn : numberedRecords? m is b.locals resolver with
  | some rs =>
    obtain ⟨rs', hread, hmoved⟩ := readRecords_of_numbered h hn
    have hlocals : b.locals = (numberedBody is b.locals).locals := rfl
    rw [hread]
    exact (buildRecords_relocate (startOf_strictMono fs) (startOf_zero fs) m hlocals
      (length_of_encodes h) hmoved).toOption_eq
  | none =>
    cases hread : readRecords m b resolver with
    | error e => rfl
    | ok rs' =>
      obtain ⟨rs, hrs⟩ := exists_numberedRecords? h hread
      cases hn.symm.trans hrs

end Encodings

/-- The trees of a method do not depend on the forms of its instructions. Two encodings of the same
instructions are both refused, or give one routine whose instruction numbers are replaced by the
offsets of the one encoding and of the other, and offsets keep the order of the instructions. -/
theorem build_encodings_agree (m : Method) (resolver : Resolver) {b c : Body}
    {is : List Instruction} {fs gs : List Form} (hlocals : b.locals = c.locals)
    (hb : Encodes fs is b.instructions) (hc : Encodes gs is c.instructions) :
    StrictMono (startOf fs) ∧ StrictMono (startOf gs) ∧
      ((∃ s : Routine, build m b resolver = .ok (s.relocate (startOf fs)) ∧
          build m c resolver = .ok (s.relocate (startOf gs))) ∨
        ∃ e e', build m b resolver = .error e ∧ build m c resolver = .error e') := by
  refine ⟨startOf_strictMono fs, startOf_strictMono gs, ?_⟩
  have hfirst := toOption_build m resolver hb
  have hsecond := toOption_build m resolver hc
  rw [← hlocals] at hsecond
  generalize buildNumbered? m is b.locals resolver = numbered at hfirst hsecond
  cases numbered with
  | some s => exact .inl ⟨s, toOption_eq_some.mp hfirst, toOption_eq_some.mp hsecond⟩
  | none =>
    obtain ⟨e, he⟩ := toOption_eq_none.mp hfirst
    obtain ⟨e', he'⟩ := toOption_eq_none.mp hsecond
    exact .inr ⟨e, e', he, he'⟩

/-- Counts its argument down to zero. -/
def drain : Method := { name := "drain", parameters := [.i4], returnType := .i4 }

def drainInstructions : List Instruction :=
  [⟨some .ldarg, .index 0⟩, ⟨some (.ldc .i4), .int32 1⟩, ⟨some (.arith .sub), .none⟩,
    ⟨some .dup, .none⟩, ⟨some .starg, .index 0⟩, ⟨some .brtrue, .target 0⟩,
    ⟨some (.ldc .i4), .int32 5⟩, ⟨some .ret, .none⟩]

def drainShort : List Form :=
  [⟨.fixed "ldarg.0" 0x02 .ldarg (.index 0), []⟩, ⟨.fixed "ldc.i4.1" 0x17 (.ldc .i4) (.int 1), []⟩,
    ⟨.general "sub" 0x59 .none (.arith .sub), []⟩, ⟨.general "dup" 0x25 .none .dup, []⟩,
    ⟨.general "starg.s" 0x10 .shortVar .starg, [0]⟩,
    ⟨.general "brtrue.s" 0x2D .shortTarget .brtrue, [0xF8]⟩,
    ⟨.fixed "ldc.i4.5" 0x1B (.ldc .i4) (.int 5), []⟩, ⟨.general "ret" 0x2A .none .ret, []⟩]

def drainLong : List Form :=
  [⟨.general "ldarg" 0xFE09 .var .ldarg, [0, 0]⟩,
    ⟨.general "ldc.i4" 0x20 .i (.ldc .i4), [1, 0, 0, 0]⟩,
    ⟨.general "sub" 0x59 .none (.arith .sub), []⟩, ⟨.general "dup" 0x25 .none .dup, []⟩,
    ⟨.general "starg" 0xFE0B .var .starg, [0, 0]⟩,
    ⟨.general "brtrue" 0x3A .target .brtrue, [0xEC, 0xFF, 0xFF, 0xFF]⟩,
    ⟨.general "ldc.i4.s" 0x1F .shortI (.ldc .i4), [5]⟩, ⟨.general "ret" 0x2A .none .ret, []⟩]

def drainShortBody : Body := { code := [0x02, 0x17, 0x59, 0x25, 0x10, 0, 0x2D, 0xF8, 0x1B, 0x2A] }

def drainLongBody : Body :=
  { code := [0xFE, 0x09, 0, 0, 0x20, 1, 0, 0, 0, 0x59, 0x25, 0xFE, 0x0B, 0, 0,
      0x3A, 0xEC, 0xFF, 0xFF, 0xFF, 0x1F, 5, 0x2A] }

/-- The two encodings differ in the offsets of all instructions but the first. -/
theorem drain_encodings_agree :
    Encodes drainShort drainInstructions drainShortBody.instructions ∧
      Encodes drainLong drainInstructions drainLongBody.instructions ∧
      ∃ s : Routine,
        build drain drainShortBody ({} : TokenTable).resolver =
          .ok (s.relocate (startOf drainShort)) ∧
        build drain drainLongBody ({} : TokenTable).resolver =
          .ok (s.relocate (startOf drainLong)) := by
  have hshort : Encodes drainShort drainInstructions drainShortBody.instructions := by
    decide +kernel
  have hlong : Encodes drainLong drainInstructions drainLongBody.instructions := by
    decide +kernel
  have hbuilt : (build drain drainShortBody ({} : TokenTable).resolver).isOk = true := by
    decide +kernel
  refine ⟨hshort, hlong, ?_⟩
  rcases (build_encodings_agree drain ({} : TokenTable).resolver (b := drainShortBody)
    (c := drainLongBody) rfl hshort hlong).2.2 with hok | ⟨e, e', he, -⟩
  · exact hok
  · simp [he, Except.isOk, Except.toBool] at hbuilt

end SpuCompiler.Trees
