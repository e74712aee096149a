import SpuCompiler.Proofs.Trees.Relocation

/-!
Placed trees. The builder adds trees to blocks and never looks at them again: two builders that
differ only in the trees of their blocks fail on the same records, and differ only in these trees
after the others (`Builder.Like.run`). For the stores before a branch, and for the branch itself,
not even the offset of the instruction is of account (`Builder.Like.branch`).
-/

namespace SpuCompiler.Trees

open Metadata Bytecode

namespace Builder

/-- Only the trees of the blocks differ. -/
def Like (b c : Builder) : Prop :=
  ∃ blocks, c = { b with blocks := blocks } ∧ c.offsets = b.offsets

/-- The same result, and builders that differ only in the trees of their blocks. -/
def SameAnd {α : Type} (x y : α × Builder) : Prop := x.1 = y.1 ∧ x.2.Like y.2

/-- Results of no account, and builders that differ only in the trees of their blocks. -/
def AnyAnd {α : Type} (x y : α × Builder) : Prop := x.2.Like y.2

namespace Like

theorem refl (b : Builder) : b.Like b := ⟨b.blocks, rfl, rfl⟩

variable {b c : Builder} (h : b.Like c)

include h

theorem addRoots (ns ns' : List Node) : (b.addRoots ns).Like (c.addRoots ns') := by
  obtain ⟨blocks, rfl, hoffsets⟩ := h
  refine ⟨({ b with blocks := blocks }.addRoots ns').blocks, ?_, ?_⟩
  · simp only [addRoots_eq]
  · rw [offsets_addRoots, offsets_addRoots, hoffsets]

theorem root (n n' : Node) : (b.root n).Like (c.root n') := h.addRoots [n] [n']

theorem clearStack : b.clearStack.Like c.clearStack := by
  obtain ⟨blocks, rfl, hoffsets⟩ := h
  exact ⟨blocks, rfl, hoffsets⟩

theorem length : c.length = b.length := by
  obtain ⟨blocks, rfl, -⟩ := h
  rfl

theorem trees : c.trees = b.trees := by
  obtain ⟨blocks, rfl, -⟩ := h
  rfl

theorem depth : c.depth = b.depth := by
  obtain ⟨blocks, rfl, -⟩ := h
  rfl

theorem blockAt? (offset : Nat) : c.blockAt? offset = b.blockAt? offset := by
  have hmap (b : Builder) : b.blockAt? offset = b.offsets.findIdx? (· == offset) := by
    rw [Builder.offsets, List.findIdx?_map, Builder.blockAt?]
    cases b.blocks
    simp [Function.comp_def]
  obtain ⟨blocks, -, hoffsets⟩ := h
  rw [hmap, hmap, hoffsets]

theorem currentOffset : c.currentOffset = b.currentOffset := by
  have hmap (b : Builder) : b.currentOffset = (b.offsets[b.current]?).getD 0 := by
    simp [Builder.offsets, Builder.currentOffset]
  obtain ⟨blocks, rfl, hoffsets⟩ := h
  rw [hmap, hmap, hoffsets]

theorem enterAt (offset : Nat) : (b.enterAt offset).Like (c.enterAt offset) := by
  unfold Builder.enterAt
  rw [h.currentOffset, h.blockAt?]
  obtain ⟨blocks, rfl, hoffsets⟩ := h
  split
  · exact ⟨blocks, rfl, hoffsets⟩
  · split
    · exact ⟨blocks, rfl, hoffsets⟩
    · exact ⟨blocks, rfl, hoffsets⟩

/-! ## Nodes -/

theorem deriveType (n : Node) : Both SameAnd (b.deriveType n) (c.deriveType n) := by
  obtain ⟨blocks, rfl, hoffsets⟩ := h
  unfold Builder.deriveType
  dsimp only
  split
  · exact .ok ⟨rfl, blocks, rfl, hoffsets⟩
  · exact .error _ _

theorem pop (r : Record) : Both SameAnd (b.pop r) (c.pop r) := by
  obtain ⟨blocks, rfl, hoffsets⟩ := h
  unfold Builder.pop
  dsimp only
  split
  · exact .ok ⟨rfl, blocks, rfl, hoffsets⟩
  · split
    · refine Like.deriveType ?_ _
      exact ⟨blocks, rfl, hoffsets⟩
    · exact .error _ _

theorem popMany (r : Record) (values : List Node) (count : Nat) :
    Both SameAnd (b.popMany r values count) (c.popMany r values count) := by
  induction count generalizing b c values with
  | zero => exact .ok ⟨rfl, h⟩
  | succ count ih =>
    refine (h.pop r).bind ?_
    rintro ⟨n, b⟩ ⟨_, c⟩ ⟨rfl, h⟩
    exact ih h (n :: values)

theorem elementOf (r : Record) (access : ElementAccess) (value : Option Node) :
    Both SameAnd (b.elementOf r access value) (c.elementOf r access value) := by
  refine (h.pop r).bind ?_
  rintro ⟨index, b⟩ ⟨_, c⟩ ⟨rfl, h⟩
  refine (h.pop r).bind ?_
  rintro ⟨array, b⟩ ⟨_, c⟩ ⟨rfl, h⟩
  refine (h.deriveType _).bind ?_
  rintro ⟨address, b⟩ ⟨_, c⟩ ⟨rfl, h⟩
  exact h.deriveType _

theorem elementNode (r : Record) (access : ElementAccess) :
    Both SameAnd (b.elementNode r access) (c.elementNode r access) := by
  rw [elementNode_eq, elementNode_eq]
  split
  · refine (h.pop r).bind ?_
    rintro ⟨n, b⟩ ⟨_, c⟩ ⟨rfl, h⟩
    exact h.elementOf r access (some n)
  · exact h.elementOf r access none

theorem callNode (r : Record) (operand : Operand Ref) :
    Both SameAnd (b.callNode r operand) (c.callNode r operand) := by
  unfold Builder.callNode
  split
  · refine (h.popMany r [] _).bind ?_
    rintro ⟨args, b⟩ ⟨_, c⟩ ⟨rfl, h⟩
    exact .ok ⟨rfl, h⟩
  · exact .error _ _

theorem plainNode (r : Record) (operand : Operand Ref) :
    Both SameAnd (b.plainNode r operand) (c.plainNode r operand) := by
  have hmethod : c.method = b.method := by
    obtain ⟨blocks, rfl, -⟩ := h
    rfl
  unfold Builder.plainNode
  rw [hmethod]
  dsimp only
  split
  · exact h.callNode r operand
  · split
    · exact .ok ⟨rfl, h⟩
    · refine (h.pop r).bind ?_
      rintro ⟨value, b⟩ ⟨_, c⟩ ⟨rfl, h⟩
      exact .ok ⟨rfl, h⟩
  · refine (h.popMany r [] _).bind ?_
    rintro ⟨values, b⟩ ⟨_, c⟩ ⟨rfl, h⟩
    exact .ok ⟨rfl, h⟩

theorem markAddress (n : Node) : (b.markAddress n).Like (c.markAddress n) := by
  obtain ⟨blocks, rfl, hoffsets⟩ := h
  unfold Builder.markAddress
  split
  all_goals exact ⟨blocks, rfl, hoffsets⟩

theorem operand (r : Record) : Both SameAnd (b.operand r) (c.operand r) := by
  have hblock := h.blockAt?
  unfold Builder.operand
  obtain ⟨blocks, rfl, hoffsets⟩ := h
  split
  case h_12 =>
    dsimp only
    split
    all_goals exact .ok ⟨rfl, blocks, rfl, hoffsets⟩
  case h_13 =>
    rw [hblock]
    split
    · exact .ok ⟨rfl, blocks, rfl, hoffsets⟩
    · exact .error _ _
  all_goals exact .ok ⟨rfl, blocks, rfl, hoffsets⟩

theorem node (r : Record) : Both SameAnd (b.node r) (c.node r) := by
  unfold Builder.node
  split
  · exact h.elementNode r _
  · refine (h.operand r).bind ?_
    rintro ⟨operand, b⟩ ⟨_, c⟩ ⟨rfl, h⟩
    refine (h.plainNode r operand).bind ?_
    rintro ⟨n, b⟩ ⟨_, c⟩ ⟨rfl, h⟩
    exact (h.markAddress n).deriveType n

/-! ## Stores -/

theorem flushTrees (ns : List Node) : Both Like (b.flushTrees ns) (c.flushTrees ns) := by
  induction ns generalizing b c with
  | nil => exact .ok h
  | cons n ns ih =>
    have hvars : c.vars = b.vars := by
      obtain ⟨blocks, rfl, -⟩ := h
      rfl
    have hadded (vars : Variables) : { b with vars := vars }.Like { c with vars := vars } := by
      obtain ⟨blocks, rfl, hoffsets⟩ := h
      exact ⟨blocks, rfl, hoffsets⟩
    unfold Builder.flushTrees
    rw [hvars]
    refine ((hadded _).deriveType _).bind ?_
    rintro ⟨s, b⟩ ⟨_, c⟩ ⟨rfl, h⟩
    apply ih
    obtain ⟨blocks, hroot, hoffsets⟩ := h.root s s
    refine ⟨blocks, ?_, hoffsets⟩
    dsimp only at hroot ⊢
    rw [hroot]

theorem flush : Both Like b.flush c.flush := by
  unfold Builder.flush
  rw [h.trees]
  apply flushTrees
  obtain ⟨blocks, rfl, hoffsets⟩ := h
  exact ⟨blocks, rfl, hoffsets⟩

theorem place (r : Record) (n : Node) : Both Like (b.place r n) (c.place r n) := by
  unfold Builder.place
  rw [h.depth]
  split
  · obtain ⟨blocks, rfl, hoffsets⟩ := h
    exact .ok ⟨blocks, rfl, hoffsets⟩
  · split
    · exact .error _ _
    · exact h.flush.bind fun _ _ h => .ok (h.root n n)

theorem load (id offset offset' : Nat) :
    Both (fun x y => x.1.type = y.1.type ∧ x.2.Like y.2) (b.load id offset) (c.load id offset') := by
  obtain ⟨blocks, rfl, hoffsets⟩ := h
  -- the offset of a node is of no account for its type
  have hderive := derive_relocate (φ := fun _ => offset') b.vars
    (.leaf { op := .ldloc, operand := .ref (.variable id), offset := offset })
  unfold Builder.load Builder.deriveType
  dsimp only [Node.relocate, Head.relocate] at hderive ⊢
  revert hderive
  generalize derive b.vars _ = x
  generalize derive b.vars _ = y
  rintro (⟨n, vars⟩ | _)
  · exact .ok ⟨(n.type_relocate).symm, blocks, rfl, hoffsets⟩
  · exact .error _ _

theorem store (id offset offset' : Nat) {value value' : Node} (ht : value.type = value'.type) :
    Both AnyAnd (b.store id value offset) (c.store id value' offset') := by
  obtain ⟨blocks, rfl, hoffsets⟩ := h
  have hafter : afterStore b.vars
        (.unary { op := .stloc, operand := .ref (.variable id), offset := offset' } value') =
      afterStore b.vars
        (.unary { op := .stloc, operand := .ref (.variable id), offset := offset } value) := by
    simp only [afterStore, Node.op, Node.head, Node.varId?, Node.operand, Node.left?, ht]
  unfold Builder.store Builder.deriveType derive typeOf
  dsimp only
  rw [hafter]
  simp only [Node.op, Node.head, Node.variableOf, Node.varId?, Node.operand, Node.leftType,
    Node.left?, Option.bind_some]
  cases b.vars.get? id with
  | none => exact .error _ _
  | some v =>
    dsimp only [bind, Except.bind, pure, Except.pure]
    cases afterStore b.vars _ with
    | ok vars => exact .ok ⟨blocks, rfl, hoffsets⟩
    | error e => exact .error _ _

theorem storeAll (offset offset' : Nat) (stores stores' : Array Node)
    (values : List (Entry × Nat)) :
    Both AnyAnd (b.storeAll offset stores values) (c.storeAll offset' stores' values) := by
  induction values generalizing b c stores stores' with
  | nil => exact .ok h
  | cons value values ih =>
    obtain ⟨entry, place⟩ := value
    cases entry with
    | carried source =>
      unfold Builder.storeAll
      split
      · exact ih h stores stores'
      · refine (h.load source offset offset').bind ?_
        rintro ⟨n, b⟩ ⟨n', c⟩ ⟨ht, h⟩
        exact (h.store place offset offset' ht).bind fun _ _ h => ih h _ _
    | tree n => exact (h.store place offset offset' rfl).bind fun _ _ h => ih h _ _

theorem entryVariables (r r' : Record) (target : Nat) (reuse : Option (List Nat)) :
    Both SameAnd (b.entryVariables r target reuse) (c.entryVariables r' target reuse) := by
  obtain ⟨blocks, rfl, hoffsets⟩ := h
  unfold Builder.entryVariables
  dsimp only [Builder.depth]
  split
  · split
    · exact .ok ⟨rfl, blocks, rfl, hoffsets⟩
    · exact .error _ _
  · split
    · exact .error _ _
    · exact .ok ⟨rfl, blocks, rfl, hoffsets⟩

theorem spill (r r' : Record) (target : Nat) (reuse : Option (List Nat)) :
    Both AnyAnd (b.spill r target reuse) (c.spill r' target reuse) := by
  refine (h.entryVariables r r' target reuse).bind ?_
  rintro ⟨ids, b⟩ ⟨_, c⟩ ⟨rfl, h⟩
  have hentries : c.stackEntries = b.stackEntries := by
    obtain ⟨blocks, rfl, -⟩ := h
    rfl
  dsimp only
  rw [hentries]
  exact (h.clearStack.storeAll _ _ _ _ _).bind fun _ _ h => .ok h

/-! ## Steps -/

theorem branch {r r' : Record} (htarget : r'.target? = r.target?) (hstop : r'.stop = r.stop)
    (hends : r'.op.endsBlock = r.op.endsBlock) (n n' : Node) :
    Both Like (b.branch r n) (c.branch r' n') := by
  unfold Builder.branch
  rw [htarget, hstop, hends]
  split
  · exact .error _ _
  · rename_i target _
    refine (h.spill r r' target none).bind ?_
    rintro ⟨stores, b⟩ ⟨stores', c⟩ h
    have hend : ∀ (x y : List Node × Builder), AnyAnd x y → Both (ε := BuildError) Like
        (.ok (((x.2.addRoots stores).addRoots x.1).root n).clearStack)
        (.ok (((y.2.addRoots stores').addRoots y.1).root n').clearStack) := fun _ _ h =>
      .ok (((h.addRoots _ _).addRoots _ _).root n n').clearStack
    obtain ⟨blocks, rfl, hoffsets⟩ := h
    dsimp only
    split
    · refine Both.bind (spill ?_ r r' r.stop _) hend
      exact ⟨blocks, rfl, hoffsets⟩
    · exact hend ([], b) _ ⟨blocks, rfl, hoffsets⟩

theorem fallThrough (r : Record) : Both Like (b.fallThrough r) (c.fallThrough r) := by
  unfold Builder.fallThrough
  rw [h.length, h.blockAt?]
  split
  · exact (h.spill r r r.stop none).bind fun _ _ h => .ok (h.addRoots _ _)
  · exact .ok h

theorem step (r : Record) : Both Like (b.step r) (c.step r) := by
  refine ((h.enterAt r.offset).node r).bind ?_
  rintro ⟨n, b⟩ ⟨_, c⟩ ⟨rfl, h⟩
  dsimp only
  split
  · exact h.branch rfl rfl rfl n n
  · refine (h.place r n).bind fun b c h => ?_
    split
    · exact .ok h.clearStack
    · exact h.fallThrough r

theorem run (rs : List Record) : Both Like (rs.foldlM Builder.step b) (rs.foldlM Builder.step c) := by
  induction rs generalizing b c with
  | nil => exact .ok h
  | cons r rs ih =>
    rw [List.foldlM_cons, List.foldlM_cons]
    exact (h.step r).bind fun _ _ h => ih h

end Like

end Builder

end SpuCompiler.Trees
