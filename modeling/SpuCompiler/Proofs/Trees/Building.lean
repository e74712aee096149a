import SpuCompiler.Proofs.Trees.Roles
import SpuCompiler.Trees.Builder

/-!
What each step of the builder does. Popping takes entries off the stack in order, a node is made
of what was popped, flushing and spilling turn entries into stores; each operation leaves the
rest of the builder alone. Later proofs use these statements and never open the builder.
-/

namespace SpuCompiler.Bytecode.Record

open Metadata

/-- Values that an instruction of method `m` takes from the stack. A constructor call has no
receiver there. -/
def popCount (m : Method) (r : Record) : Nat :=
  match r.op.pops with
  | .fixed count => count
  | .result => if m.returnType = .void then 0 else 1
  | .callee =>
    match r.operand with
    | .method c => if r.op = .newobj ∧ c.hasThis then c.argumentCount - 1 else c.argumentCount
    | _ => 0

def pushCount (r : Record) : Nat :=
  match r.op.pushes with
  | .none => 0
  | .one => 1
  | .two => 2
  | .callee =>
    match r.operand with
    | .method c => if c.returnType = .void then 0 else 1
    | _ => 0

end SpuCompiler.Bytecode.Record

namespace SpuCompiler.Trees

open Metadata Bytecode

namespace Node

@[simp] theorem op_withType (t : StackType) (n : Node) : (n.withType t).op = n.op := by
  cases n <;> rfl

@[simp] theorem operand_withType (t : StackType) (n : Node) :
    (n.withType t).operand = n.operand := by
  cases n <;> rfl

@[simp] theorem offset_withType (t : StackType) (n : Node) : (n.withType t).offset = n.offset := by
  cases n <;> rfl

@[simp] theorem type_withType (t : StackType) (n : Node) : (n.withType t).type = t := by
  cases n <;> rfl

@[simp] theorem children_withType (t : StackType) (n : Node) :
    (n.withType t).children = n.children := by
  cases n <;> rfl

end Node

namespace Builder

variable {b b' : Builder} {n : Node} {id count offset target : Nat} {r : Record}
  {stores values : List Node} {o : Operand Ref} {m : Method} {access : ElementAccess}
  {reuse : Option (List Nat)}

def loadNode (id offset : Nat) (t : StackType) : Node :=
  .leaf { op := .ldloc, operand := .ref (.variable id), offset := offset, type := t }

def storeNode (id : Nat) (value : Node) (offset : Nat) : Node :=
  .unary { op := .stloc, operand := .ref (.variable id), offset := offset, type := .void } value

inductive Entry.Yields : Entry → Node → Prop
  | tree (n : Node) : Yields (.tree n) n
  | carried (id offset : Nat) (t : StackType) : Yields (.carried id) (loadNode id offset t)

/-- Only the stack and the types of variables differ. -/
def Restacks (b b' : Builder) : Prop :=
  ∃ trees carried vars, b' = { b with trees := trees, carried := carried, vars := vars } ∧
    vars.role = b.vars.role

theorem Restacks.refl (b : Builder) : b.Restacks b := ⟨b.trees, b.carried, b.vars, rfl, rfl⟩

theorem Restacks.trans {b'' : Builder} (h : b.Restacks b') (h' : b'.Restacks b'') :
    b.Restacks b'' := by
  obtain ⟨trees, carried, vars, rfl, hr⟩ := h
  obtain ⟨trees', carried', vars', rfl, hr'⟩ := h'
  exact ⟨trees', carried', vars', rfl, hr'.trans hr⟩

theorem length_stackEntries (b : Builder) : b.stackEntries.length = b.depth := by
  simp [stackEntries, depth, Nat.add_comm]

/-! ## Nodes -/

theorem deriveType_ok {n' : Node} (h : b.deriveType n = .ok (n', b')) :
    ∃ t vars, typeOf b.vars n = .ok t ∧ n' = n.withType t ∧ b' = { b with vars := vars } ∧
      vars.role = b.vars.role := by
  unfold deriveType at h
  split at h
  · rename_i hd
    cases h
    obtain ⟨t, ht, rfl, hr⟩ := derive_ok hd
    exact ⟨t, _, ht, rfl, rfl, hr⟩
  · simp at h

theorem load_ok (h : b.load id offset = .ok (n, b')) :
    ∃ t vars, n = loadNode id offset t ∧ b' = { b with vars := vars } ∧
      vars.role = b.vars.role := by
  obtain ⟨t, vars, -, rfl, rfl, hr⟩ := deriveType_ok h
  exact ⟨t, vars, rfl, rfl, hr⟩

theorem store_ok {value s : Node} (h : b.store id value offset = .ok (s, b')) :
    s = storeNode id value offset ∧ ∃ vars, b' = { b with vars := vars } ∧
      vars.role = b.vars.role := by
  obtain ⟨t, vars, ht, rfl, rfl, hr⟩ := deriveType_ok h
  have hvoid : t = .void := by
    simp only [typeOf, Node.op, Node.head] at ht
    obtain ⟨_, _, ht⟩ := bind_eq_ok.mp ht
    obtain ⟨_, _, ht⟩ := bind_eq_ok.mp ht
    cases ht
    rfl
  exact ⟨by rw [hvoid]; rfl, vars, rfl, hr⟩

theorem pop_ok (h : b.pop r = .ok (n, b')) :
    ∃ e, b.stackEntries = b'.stackEntries ++ [e] ∧ e.Yields n ∧ b.Restacks b' := by
  unfold pop at h
  split at h
  · rename_i hn
    cases h
    exact ⟨.tree n, by simp [stackEntries, hn], .tree n, ⟨_, b.carried, b.vars, rfl, rfl⟩⟩
  · rename_i htrees
    split at h
    · rename_i id carried hc
      obtain ⟨t, vars, rfl, rfl, hr⟩ := load_ok h
      exact ⟨.carried id, by simp [stackEntries, htrees, hc], .carried id r.offset t,
        ⟨b.trees, carried, vars, rfl, hr⟩⟩
    · simp [stackError] at h

theorem popMany_ok {out : List Node} (h : b.popMany r values count = .ok (out, b')) :
    ∃ es args, out = args ++ values ∧ b.stackEntries = b'.stackEntries ++ es ∧
      List.Forall₂ Entry.Yields es args ∧ es.length = count ∧ b.Restacks b' := by
  induction count generalizing b values with
  | zero =>
    cases h
    exact ⟨[], [], rfl, by simp, .nil, rfl, .refl _⟩
  | succ count ih =>
    obtain ⟨⟨n, b1⟩, hp, h⟩ := bind_eq_ok.mp h
    obtain ⟨e, hstack, hy, hr⟩ := pop_ok hp
    obtain ⟨es, args, rfl, hstack', hys, hlen, hr'⟩ := ih h
    refine ⟨es ++ [e], args ++ [n], by simp, by rw [hstack, hstack']; simp, ?_, by simp [hlen],
      hr.trans hr'⟩
    exact List.rel_append hys (.cons hy .nil)

/-- The operand of a node refers to what the operand of its record refers to. -/
def Refers (b : Builder) : Operand Place → Operand Ref → Prop
  | .none, o => o = .none
  | .int32 v, o => o = .int32 v
  | .int64 v, o => o = .int64 v
  | .float32 v, o => o = .float32 v
  | .float64 v, o => o = .float64 v
  | .field f, o => o = .field f
  | .method m, o => o = .method m
  | .type t, o => o = .type t
  | .string s, o => o = .string s
  | .ref (.localVar i), o => o = .ref (.variable (b.locals.getD i 0))
  | .ref (.argument i), o => o = .ref (.variable (b.arguments.getD i 0))
  | .ref (.temporary i), o => ∃ id, b.temporaries[i]? = some id ∧ o = .ref (.variable id)
  | .ref (.target t), o => ∃ k, b.blockAt? t = some k ∧ o = .ref (.block k)

def addTemporary (b : Builder) : Builder :=
  { b with vars := b.vars.addSynthetic.2, temporaries := b.temporaries.push b.vars.size }

/-- An operand changes the builder only where it is a temporary that has no variable yet. -/
theorem operand_ok (h : b.operand r = .ok (o, b')) :
    (b' = b ∧ b.Refers r.operand o) ∨
      ∃ i, r.operand = .ref (.temporary i) ∧ b.temporaries.size ≤ i ∧
        o = .ref (.variable b.vars.size) ∧ b' = b.addTemporary := by
  unfold operand at h
  cases hr : r.operand with
  | ref p =>
    cases p with
    | localVar i | argument i =>
      simp only [hr, Except.ok.injEq, Prod.mk.injEq] at h
      exact .inl ⟨h.2.symm, h.1.symm⟩
    | temporary i =>
      cases ht : b.temporaries[i]? with
      | some id => simp_all [Refers]
      | none =>
        right
        simp only [hr, ht, Except.ok.injEq, Prod.mk.injEq] at h
        exact ⟨i, rfl, by simpa using ht, h.1.symm, h.2.symm⟩
    | target t =>
      cases hk : b.blockAt? t with
      | some k => simp_all [Refers]
      | none => simp [hr, hk, stackError] at h
  | _ => simp_all [Refers]

theorem method_of_refers {p : Operand Place} (h : b.Refers p (.method m)) : p = .method m := by
  cases p with
  | ref p => cases p <;> simp [Refers] at h
  | _ => simp_all [Refers]

theorem children_plain (head : Head) (h : values.length ≤ 2) :
    (Node.plain head values[0]? values[1]?).children = values := by
  match values with
  | [] => rfl
  | [_] => rfl
  | [_, _] => rfl
  | _ :: _ :: _ :: _ => simp at h

theorem head_plain (head : Head) (left right : Option Node) :
    (Node.plain head left right).head = head := by
  cases left <;> cases right <;> rfl

theorem pops_le_two {op : Op} (he : op.elementAccess? = none) (h : op.pops = .fixed count) :
    count ≤ 2 := by
  cases op <;> simp_all [Op.pops, Op.elementAccess?] <;> omega

/-- A node is made of its record, with what was popped as its children. -/
structure MadeOf (m : Method) (r : Record) (o : Operand Ref) (args : List Node) (n : Node) :
    Prop where
  op : n.op = r.op
  operand : n.operand = o
  offset : n.offset = r.offset
  children : n.children = args
  count : args.length = r.popCount m

theorem MadeOf.withType {args : List Node} (h : MadeOf m r o args n) (t : StackType) :
    MadeOf m r o args (n.withType t) :=
  ⟨by simp [h.op], by simp [h.operand], by simp [h.offset], by simp [h.children], h.count⟩

theorem plainNode_ok (he : r.op.elementAccess? = none)
    (ho : ∀ c, o = .method c → r.operand = .method c) (h : b.plainNode r o = .ok (n, b')) :
    ∃ es args, b.stackEntries = b'.stackEntries ++ es ∧ List.Forall₂ Entry.Yields es args ∧
      MadeOf b.method r o args n ∧ b.Restacks b' := by
  unfold plainNode at h
  dsimp only at h
  split at h
  · rename_i hpops
    unfold callNode at h
    split at h
    · rename_i c
      obtain ⟨⟨args, b1⟩, hp, h⟩ := bind_eq_ok.mp h
      cases h
      obtain ⟨es, args, rfl, hstack, hys, hlen, hr⟩ := popMany_ok hp
      refine ⟨es, args, hstack, hys, ⟨rfl, rfl, rfl, by simp [Node.children], ?_⟩, hr⟩
      rw [← hys.length_eq, hlen]
      simp [Record.popCount, hpops, ho c rfl]
    · simp at h
  · rename_i hpops
    split at h
    · rename_i hvoid
      cases h
      exact ⟨[], [], by simp, .nil, ⟨rfl, rfl, rfl, rfl, by simp [Record.popCount, hpops, hvoid]⟩,
        .refl _⟩
    · rename_i hvoid
      obtain ⟨⟨value, b1⟩, hp, h⟩ := bind_eq_ok.mp h
      cases h
      obtain ⟨e, hstack, hy, hr⟩ := pop_ok hp
      exact ⟨[e], [value], hstack, .cons hy .nil,
        ⟨rfl, rfl, rfl, rfl, by simp [Record.popCount, hpops, hvoid]⟩, hr⟩
  · rename_i count hpops
    obtain ⟨⟨values, b1⟩, hp, h⟩ := bind_eq_ok.mp h
    cases h
    obtain ⟨es, args, rfl, hstack, hys, hlen, hr⟩ := popMany_ok hp
    have hcount : args.length = count := by rw [← hys.length_eq, hlen]
    have hle := pops_le_two he hpops
    refine ⟨es, args, hstack, hys, ⟨?_, ?_, ?_, ?_, ?_⟩, hr⟩
    · simp [Node.op, head_plain]
    · simp [Node.operand, head_plain]
    · simp [Node.offset, head_plain]
    · rw [List.append_nil]
      exact children_plain _ (hcount.trans_le hle)
    · simp [Record.popCount, hpops, hcount]

theorem markAddress_restacks (b : Builder) (n : Node) : b.Restacks (b.markAddress n) := by
  unfold markAddress
  split
  · exact ⟨b.trees, b.carried, _, rfl, Variables.role_markEscaping _ _⟩
  · exact ⟨b.trees, b.carried, _, rfl, Variables.role_markEscaping _ _⟩
  · exact .refl b

/-- The stack is untouched where an address is noted. -/
theorem stackEntries_markAddress (b : Builder) (n : Node) :
    (b.markAddress n).stackEntries = b.stackEntries := by
  unfold markAddress
  split <;> rfl

/-- The node of a record that is no element access. -/
theorem node_ok_plain (he : r.op.elementAccess? = none) (h : b.node r = .ok (n, b')) :
    ∃ o b1 es args, b.operand r = .ok (o, b1) ∧ b.stackEntries = b'.stackEntries ++ es ∧
      List.Forall₂ Entry.Yields es args ∧ MadeOf b.method r o args n ∧ b1.Restacks b' := by
  unfold node at h
  simp only [he] at h
  obtain ⟨⟨o, b1⟩, ho, h⟩ := bind_eq_ok.mp h
  obtain ⟨⟨n1, b2⟩, hn, h⟩ := bind_eq_ok.mp h
  have hsame : b1.stackEntries = b.stackEntries ∧ b1.method = b.method ∧
      ∀ c, o = .method c → r.operand = .method c := by
    rcases operand_ok ho with ⟨rfl, href⟩ | ⟨i, -, -, rfl, rfl⟩
    · exact ⟨rfl, rfl, fun c hc => method_of_refers (hc ▸ href)⟩
    · exact ⟨rfl, rfl, by simp⟩
  obtain ⟨es, args, hstack, hys, hmade, hr⟩ := plainNode_ok he hsame.2.2 hn
  obtain ⟨t, vars, -, rfl, rfl, hrole⟩ := deriveType_ok h
  refine ⟨o, b1, es, args, ho, ?_, hys, ?_, ?_⟩
  · rw [← hsame.1, hstack, ← stackEntries_markAddress b2 n1]
    rfl
  · rw [← hsame.2.1]
    exact hmade.withType t
  · exact (hr.trans (markAddress_restacks b2 n1)).trans ⟨_, _, vars, rfl, hrole⟩

def indirectOperand (access : ElementAccess) (element : Ty) : Operand Ref :=
  match access.indirect with
  | .ldobj | .stobj => .type element
  | _ => .none

def accessedType (r : Record) (access : ElementAccess) (array : Node) : Ty :=
  match r.operand with
  | .type t => t
  | _ => elementType access.indirect array.type

/-- The node of an element access whose value, if it stores one, is already popped. -/
def elementOf (b : Builder) (r : Record) (access : ElementAccess) (value : Option Node) :
    Except BuildError (Node × Builder) := do
  let (index, b) ← b.pop r
  let (array, b) ← b.pop r
  let element := accessedType r access array
  let (address, b) ← b.deriveType
    (.binary { op := .ldelema, operand := .type element, offset := r.offset } array index)
  let operand := indirectOperand access element
  b.deriveType (.plain { op := access.indirect, operand := operand, offset := r.offset }
    (some address) value)

theorem elementNode_eq (b : Builder) (r : Record) (access : ElementAccess) :
    b.elementNode r access =
      if access.isStore then do
        let (n, b) ← b.pop r
        b.elementOf r access (some n)
      else b.elementOf r access none := by
  unfold elementNode
  dsimp only
  split <;> rfl

/-- An indirect access through an element address. -/
structure ElementMade (r : Record) (access : ElementAccess) (array index : Node)
    (value : List Node) (n : Node) : Prop where
  op : n.op = access.indirect
  offset : n.offset = r.offset
  parts : ∃ element t, (∀ ty, r.operand = .type ty → element = ty) ∧
    n.operand = indirectOperand access element ∧
    n.children = .binary { op := .ldelema, operand := .type element, offset := r.offset, type := t }
      array index :: value

theorem elementOf_ok {value : Option Node} (h : b.elementOf r access value = .ok (n, b')) :
    ∃ es array index, b.stackEntries = b'.stackEntries ++ es ∧
      List.Forall₂ Entry.Yields es [array, index] ∧
      ElementMade r access array index value.toList n ∧ b.Restacks b' := by
  obtain ⟨⟨index, b1⟩, hi, h⟩ := bind_eq_ok.mp h
  obtain ⟨⟨array, b2⟩, ha, h⟩ := bind_eq_ok.mp h
  obtain ⟨⟨address, b3⟩, hd, h⟩ := bind_eq_ok.mp h
  obtain ⟨ei, hstacki, hyi, hri⟩ := pop_ok hi
  obtain ⟨ea, hstacka, hya, hra⟩ := pop_ok ha
  obtain ⟨t, vars, -, rfl, rfl, hrole⟩ := deriveType_ok hd
  obtain ⟨t', vars', -, rfl, rfl, hrole'⟩ := deriveType_ok h
  refine ⟨[ea, ei], array, index, ?_, .cons hya (.cons hyi .nil), ⟨?_, ?_, ?_⟩, ?_⟩
  · rw [hstacki, hstacka]
    simp [stackEntries]
  · rw [Node.op_withType, Node.op, head_plain]
  · rw [Node.offset_withType, Node.offset, head_plain]
  · refine ⟨accessedType r access array, t, ?_, ?_, ?_⟩
    · intro ty hty
      simp [accessedType, hty]
    · rw [Node.operand_withType, Node.operand, head_plain]
    · cases value <;> rfl
  · exact (hri.trans hra).trans ⟨_, _, vars', rfl, hrole'.trans hrole⟩

/-- An element access is an indirect access through an element address. -/
theorem elementNode_ok (h : b.elementNode r access = .ok (n, b')) :
    ∃ es array index value, b.stackEntries = b'.stackEntries ++ es ∧
      List.Forall₂ Entry.Yields es (array :: index :: value) ∧
      value.length = (if access.isStore then 1 else 0) ∧
      ElementMade r access array index value n ∧ b.Restacks b' := by
  rw [elementNode_eq] at h
  split at h
  · rename_i hs
    obtain ⟨⟨value, b1⟩, hp, h⟩ := bind_eq_ok.mp h
    obtain ⟨e, hstack, hy, hr⟩ := pop_ok hp
    obtain ⟨es, array, index, hstack', hys, hmade, hr'⟩ := elementOf_ok h
    refine ⟨es ++ [e], array, index, [value], ?_, ?_, by simp [hs], hmade, hr.trans hr'⟩
    · rw [hstack, hstack', List.append_assoc]
    · exact List.rel_append hys (.cons hy .nil)
  · rename_i hs
    obtain ⟨es, array, index, hstack, hys, hmade, hr⟩ := elementOf_ok h
    exact ⟨es, array, index, [], hstack, hys, by simp [hs], hmade, hr⟩

/-! ## Values left on the stack -/

theorem isValue_ofTy (t : Ty) : (StackType.ofTy t).isValue = decide (t ≠ .void) := by
  cases t with
  | basic k => cases k <;> simp [StackType.ofTy, StackType.ofBasic, StackType.isValue]
  | _ => simp [StackType.ofTy, StackType.isValue]

/-- A call has the type that its method returns. -/
theorem node_call_type (hop : r.op = .call ∨ r.op = .callvirt) (h : b.node r = .ok (n, b')) :
    ∃ c, r.operand = .method c ∧ n.type = StackType.ofTy c.returnType := by
  have he : r.op.elementAccess? = none := by rcases hop with h | h <;> rw [h] <;> rfl
  have hpops : r.op.pops = .callee := by rcases hop with h | h <;> rw [h] <;> rfl
  have hnew : r.op ≠ .newobj := by rcases hop with h | h <;> rw [h] <;> simp
  simp only [node, he] at h
  obtain ⟨⟨o, b1⟩, ho, h⟩ := bind_eq_ok.mp h
  obtain ⟨⟨n1, b2⟩, hn, h⟩ := bind_eq_ok.mp h
  simp only [plainNode, hpops, callNode] at hn
  split at hn
  · rename_i c
    obtain ⟨⟨args, b3⟩, -, hn⟩ := bind_eq_ok.mp hn
    cases hn
    obtain ⟨t, vars, ht, rfl, rfl, -⟩ := deriveType_ok h
    refine ⟨c, ?_, ?_⟩
    · rcases operand_ok ho with ⟨rfl, href⟩ | ⟨_, -, -, hno, -⟩
      · exact method_of_refers href
      · simp at hno
    · rw [Node.type_withType]
      rcases hop with hop | hop <;>
      · simp only [typeOf, Node.op, Node.head, hop, callType, Node.callee?] at ht
        simpa using ht.symm
  · simp at hn

/-- The node of a record leaves a value exactly where the record puts one on the stack. -/
theorem node_produces (hdup : r.op ≠ .dup) (h : b.node r = .ok (n, b')) :
    r.pushCount = if producesValue r.op n then 1 else 0 := by
  unfold Record.pushCount producesValue
  cases hp : r.op.pushes with
  | none => rfl
  | one => rfl
  | two =>
    cases hop : r.op <;> simp_all [Op.pushes]
  | callee =>
    have hop : r.op = .call ∨ r.op = .callvirt := by
      cases hop : r.op <;> simp_all [Op.pushes]
    obtain ⟨c, hc, ht⟩ := node_call_type hop h
    simp [hc, ht, isValue_ofTy]

/-- A node takes as many values off the stack as its record says. -/
theorem node_depth (h : b.node r = .ok (n, b')) : b.depth = b'.depth + r.popCount b.method := by
  rw [← length_stackEntries, ← length_stackEntries]
  cases he : r.op.elementAccess? with
  | none =>
    obtain ⟨o, b1, es, args, -, hstack, hys, hmade, -⟩ := node_ok_plain he h
    rw [hstack, List.length_append, hys.length_eq, hmade.count]
  | some access =>
    simp only [node, he] at h
    obtain ⟨es, array, index, value, hstack, hys, hlen, -, -⟩ := elementNode_ok h
    have hcount : r.popCount b.method = 2 + value.length := by
      rw [hlen]
      cases hop : r.op <;> simp [hop, Op.elementAccess?] at he <;> subst he <;>
        simp [Record.popCount, hop, Op.pops]
    rw [hstack, List.length_append, hys.length_eq, hcount]
    simp only [List.length_cons]
    omega

/-! ## Roots -/

def offsets (b : Builder) : List Nat := b.blocks.toList.map Block.offset

def rootsAt (b : Builder) (k : Nat) : List Node := ((b.blocks[k]?).map (·.roots.toList)).getD []

theorem addRoots_eq (b : Builder) (ns : List Node) :
    b.addRoots ns = { b with
      blocks := b.blocks.modify b.current fun k => { k with roots := k.roots ++ ns.toArray } } := by
  induction ns generalizing b with
  | nil =>
    have hid : b.blocks.modify b.current
        (fun k => { k with roots := k.roots ++ ([] : List Node).toArray }) = b.blocks := by
      ext1
      · simp
      · simp [Array.getElem_modify]
    rw [hid]
    rfl
  | cons n ns ih =>
    have hstep : b.addRoots (n :: ns) = (b.root n).addRoots ns := rfl
    rw [hstep, ih]
    simp only [root, Builder.mk.injEq, true_and, and_true]
    ext1
    · simp
    · simp only [Array.getElem_modify]
      split <;> simp

theorem offsets_addRoots (b : Builder) (ns : List Node) : (b.addRoots ns).offsets = b.offsets := by
  rw [addRoots_eq]
  apply List.ext_getElem?
  intro i
  simp only [offsets, List.getElem?_map, Array.getElem?_toList, Array.getElem?_modify]
  split
  · cases b.blocks[i]? <;> rfl
  · rfl

/-- What holds of all roots and of those that are added holds of all roots then. -/
theorem forall_roots_addRoots {P : Node → Prop} (h : ∀ k ∈ b.blocks, ∀ n ∈ k.roots, P n)
    (hns : ∀ n ∈ stores, P n) : ∀ k ∈ (b.addRoots stores).blocks, ∀ n ∈ k.roots, P n := by
  rw [addRoots_eq]
  intro k hk n hn
  obtain ⟨i, hi, rfl⟩ := Array.mem_iff_getElem.mp hk
  rw [Array.getElem_modify] at hn
  have hi' : i < b.blocks.size := by simpa using hi
  split at hn
  · rcases Array.mem_append.mp hn with hn | hn
    · exact h _ (Array.getElem_mem hi') n hn
    · exact hns n (by simpa using hn)
  · exact h _ (Array.getElem_mem hi') n hn

theorem forall_roots_start {body : Body} {bs : List Nat} {P : Node → Prop} :
    ∀ k ∈ (start m body bs).blocks, ∀ n ∈ k.roots, P n := by
  intro k hk n hn
  obtain ⟨offset, -, rfl⟩ := List.mem_map.mp (List.mem_toArray.mp hk)
  simp at hn

theorem rootsAt_addRoots (b : Builder) (ns : List Node) (hcur : b.current < b.blocks.size)
    (k : Nat) :
    (b.addRoots ns).rootsAt k = if k = b.current then b.rootsAt k ++ ns else b.rootsAt k := by
  rw [addRoots_eq]
  simp only [rootsAt, Array.getElem?_modify]
  by_cases hk : b.current = k
  · subst hk
    simp [Array.getElem?_eq_getElem hcur]
  · simp [hk, Ne.symm hk]

/-! ## Stores -/

def flushStores (id : Nat) : List Node → List Node
  | [] => []
  | n :: ns => storeNode id n n.offset :: flushStores (id + 1) ns

theorem flushTrees_ok {ns : List Node} (h : b.flushTrees ns = .ok b') :
    ∃ vars, b' = { b.addRoots (flushStores b.vars.size ns) with
        carried := (List.range' b.vars.size ns.length).reverse ++ b.carried
        vars := vars } ∧
      vars.size = b.vars.size + ns.length ∧ b.vars.Extends vars := by
  induction ns generalizing b with
  | nil =>
    cases h
    exact ⟨b'.vars, rfl, rfl, .refl _⟩
  | cons n ns ih =>
    obtain ⟨⟨s, b1⟩, hs, h⟩ := bind_eq_ok.mp h
    obtain ⟨rfl, vars, rfl, hrole⟩ := store_ok hs
    obtain ⟨vars', rfl, hsize, hext⟩ := ih h
    replace hrole : vars.role = b.vars.addSynthetic.2.role := hrole
    have hsz : vars.size = b.vars.size + 1 := by
      rw [Variables.size_eq_of_role_eq hrole, Variables.size_addSynthetic]
    refine ⟨vars', ?_, ?_, ?_⟩
    · simp only [addRoots_eq, root, flushStores, List.length_cons, List.range'_succ, hsz, Builder.mk.injEq, true_and, and_true]
      refine ⟨?_, by simp⟩
      ext1
      · simp
      · simp only [Array.getElem_modify]
        split <;> simp
    · simp only [root] at hsize
      rw [hsize, hsz, List.length_cons]
      omega
    · exact ((Variables.Extends.addSynthetic b.vars).trans (.of_role_eq hrole)).trans hext

theorem flush_ok (h : b.flush = .ok b') :
    ∃ vars, b' = { b.addRoots (flushStores b.vars.size b.trees.reverse) with
        trees := []
        carried := (List.range' b.vars.size b.trees.length).reverse ++ b.carried
        vars := vars } ∧
      vars.size = b.vars.size + b.trees.length ∧ b.vars.Extends vars := by
  obtain ⟨vars, rfl, hsize, hext⟩ := flushTrees_ok h
  refine ⟨vars, ?_, by simpa using hsize, hext⟩
  simp [addRoots_eq]

/-- The stores that move stack entries into variables; an entry that is already in its variable
takes none. -/
inductive Moves (offset : Nat) : List (Entry × Nat) → List Node → Prop
  | nil : Moves offset [] []
  | skip {id : Nat} {rest : List (Entry × Nat)} {stores : List Node} :
      Moves offset rest stores → Moves offset ((.carried id, id) :: rest) stores
  | store {e : Entry} {n : Node} {id : Nat} {rest : List (Entry × Nat)} {stores : List Node} :
      e.Yields n → Moves offset rest stores →
      Moves offset ((e, id) :: rest) (storeNode id n offset :: stores)

theorem storeAll_ok {acc out : Array Node} {pairs : List (Entry × Nat)}
    (h : b.storeAll offset acc pairs = .ok (out, b')) :
    ∃ stores vars, out.toList = acc.toList ++ stores ∧ Moves offset pairs stores ∧
      b' = { b with vars := vars } ∧ vars.role = b.vars.role := by
  induction pairs generalizing b acc with
  | nil =>
    cases h
    exact ⟨[], b'.vars, by simp, .nil, rfl, rfl⟩
  | cons pair rest ih =>
    obtain ⟨e, id⟩ := pair
    cases e with
    | carried source =>
      simp only [storeAll] at h
      split at h
      · rename_i heq
        subst heq
        obtain ⟨stores, vars, hout, hmoves, rfl, hrole⟩ := ih h
        exact ⟨stores, vars, hout, .skip hmoves, rfl, hrole⟩
      · obtain ⟨⟨value, b1⟩, hl, h⟩ := bind_eq_ok.mp h
        obtain ⟨t, vars1, rfl, rfl, hrole1⟩ := load_ok hl
        obtain ⟨⟨s, b2⟩, hs, h⟩ := bind_eq_ok.mp h
        obtain ⟨rfl, vars2, rfl, hrole2⟩ := store_ok hs
        obtain ⟨stores, vars, hout, hmoves, rfl, hrole⟩ := ih h
        refine ⟨_ :: stores, vars, ?_, .store (.carried source offset t) hmoves, rfl,
          (hrole.trans hrole2).trans hrole1⟩
        simpa using hout
    | tree value =>
      obtain ⟨⟨s, b1⟩, hs, h⟩ := bind_eq_ok.mp h
      obtain ⟨rfl, vars1, rfl, hrole1⟩ := store_ok hs
      obtain ⟨stores, vars, hout, hmoves, rfl, hrole⟩ := ih h
      refine ⟨_ :: stores, vars, ?_, .store (.tree value) hmoves, rfl, hrole.trans hrole1⟩
      simpa using hout

/-- The variables of a block are those recorded for it, or are recorded now: those to reuse, or
fresh ones. -/
inductive Enters (b : Builder) (target : Nat) (reuse : Option (List Nat)) :
    List Nat → Variables → List (Nat × List Nat) → Prop
  | recorded {ids : List Nat} : b.entries.lookup target = some ids →
      Enters b target reuse ids b.vars b.entries
  | reused {ids : List Nat} : b.entries.lookup target = none →
      ¬ (0 < b.depth ∧ target ∈ b.visited) → reuse = some ids →
      Enters b target reuse ids b.vars ((target, ids) :: b.entries)
  | fresh {vars : Variables} : b.entries.lookup target = none →
      ¬ (0 < b.depth ∧ target ∈ b.visited) → vars.size = b.vars.size + b.depth →
      b.vars.Extends vars →
      Enters b target reuse (List.range' b.vars.size b.depth) vars
        ((target, List.range' b.vars.size b.depth) :: b.entries)

theorem entryVariables_ok {ids : List Nat} (h : b.entryVariables r target reuse = .ok (ids, b')) :
    ids.length = b.depth ∧
      ∃ vars entries, Enters b target reuse ids vars entries ∧
        b' = { b with vars := vars, entries := entries } := by
  unfold entryVariables at h
  dsimp only at h
  split at h
  · rename_i hl
    split at h
    · rename_i hlen
      cases h
      exact ⟨hlen, _, _, .recorded hl, rfl⟩
    · simp [stackError] at h
  · rename_i hl
    split at h
    · simp [stackError] at h
    · rename_i hv
      cases hf : reuse.filter (·.length = b.depth) with
      | some ids' =>
        simp only [hf, Except.ok.injEq, Prod.mk.injEq] at h
        obtain ⟨rfl, rfl⟩ := h
        obtain ⟨hreuse, hlen⟩ := Option.filter_eq_some_iff.mp hf
        exact ⟨by simpa using hlen, _, _, .reused hl hv hreuse, rfl⟩
      | none =>
        obtain ⟨hids, hsize, hext⟩ := Variables.addSynthetics_spec b.vars b.depth
        simp only [hf, Except.ok.injEq, Prod.mk.injEq] at h
        obtain ⟨rfl, rfl⟩ := h
        rw [hids]
        exact ⟨List.length_range', _, _, .fresh hl hv hsize hext, rfl⟩

/-- Moves the whole stack into the variables of a block. -/
theorem spill_ok (h : b.spill r target reuse = .ok (stores, b')) :
    ∃ ids vars vars' entries, ids.length = b.depth ∧ Enters b target reuse ids vars entries ∧
      Moves r.offset (b.stackEntries.zip ids) stores ∧ vars'.role = vars.role ∧
      b' = { b with trees := [], carried := [], vars := vars', entries := entries } := by
  obtain ⟨⟨ids, b1⟩, he, h⟩ := bind_eq_ok.mp h
  obtain ⟨hlen, vars, entries, henters, rfl⟩ := entryVariables_ok he
  obtain ⟨⟨out, b2⟩, hs, h⟩ := bind_eq_ok.mp h
  obtain ⟨stores', vars', hout, hmoves, rfl, hrole⟩ := storeAll_ok hs
  cases h
  refine ⟨ids, vars, vars', entries, hlen, henters, ?_, hrole, rfl⟩
  simpa [hout, stackEntries] using hmoves

/-! ## The end of a step -/

theorem place_ok (h : b.place r n = .ok b') :
    (producesValue r.op n = true ∧ b' = { b with trees := n :: b.trees }) ∨
      (producesValue r.op n = false ∧ ¬ (r.op = .ret ∧ 0 < b.depth) ∧
        ∃ b1, b.flush = .ok b1 ∧ b' = b1.root n) := by
  unfold place at h
  split at h
  · rename_i hv
    cases h
    exact .inl ⟨hv, rfl⟩
  · rename_i hv
    split at h
    · simp [stackError] at h
    · rename_i hret
      obtain ⟨b1, hf, h⟩ := bind_eq_ok.mp h
      cases h
      exact .inr ⟨by simpa using hv, hret, b1, hf, rfl⟩

/-- Control passes from a record to the block that starts behind it. -/
def FallsInto (b : Builder) (r : Record) : Prop :=
  0 < r.size ∧ r.stop < b.length ∧ (b.blockAt? r.stop).isSome

theorem fallThrough_ok (h : b.fallThrough r = .ok b') :
    (b.FallsInto r ∧ ∃ stores b1, b.spill r r.stop none = .ok (stores, b1) ∧
        b' = b1.addRoots stores) ∨
      (¬ b.FallsInto r ∧ b' = b) := by
  unfold fallThrough at h
  split at h
  · rename_i hc
    obtain ⟨⟨stores, b1⟩, hs, h⟩ := bind_eq_ok.mp h
    cases h
    exact .inl ⟨hc, stores, b1, hs, rfl⟩
  · rename_i hc
    cases h
    exact .inr ⟨hc, rfl⟩

/-- The stack of the block that follows a conditional branch: it takes the values from the
variables of the target. -/
def onTarget (b : Builder) (target : Nat) : Builder :=
  { b with trees := [], carried := ((b.entries.lookup target).getD []).reverse }

theorem branch_ok (h : b.branch r n = .ok b') :
    ∃ target stores b1 more b2, r.target? = some target ∧
      b.spill r target none = .ok (stores, b1) ∧
      ((r.op.endsBlock = false ∧ r.stop < b1.length ∧
          (b1.onTarget target).spill r r.stop (some ((b1.entries.lookup target).getD [])) =
            .ok (more, b2)) ∨
        (¬ (r.op.endsBlock = false ∧ r.stop < b1.length) ∧ more = [] ∧ b2 = b1)) ∧
      b' = (((b2.addRoots stores).addRoots more).root n).clearStack := by
  unfold branch at h
  split at h
  · simp [stackError] at h
  · rename_i target ht
    obtain ⟨⟨stores, b1⟩, hs, h⟩ := bind_eq_ok.mp h
    dsimp only at h
    split at h
    · rename_i hc
      obtain ⟨⟨more, b2⟩, hm, h⟩ := bind_eq_ok.mp h
      cases h
      simp only [Bool.not_eq_eq_eq_not, Bool.not_true] at hc
      exact ⟨target, stores, b1, more, b2, ht, hs, .inl ⟨hc.1, hc.2, hm⟩, rfl⟩
    · rename_i hc
      cases h
      simp only [Bool.not_eq_eq_eq_not, Bool.not_true] at hc
      exact ⟨target, stores, b1, [], b1, ht, hs, .inr ⟨hc, rfl, rfl⟩, rfl⟩

/-- A step enters the block of its record, makes the node, and ends with a branch or with a root
or a value. -/
theorem step_ok (h : b.step r = .ok b') :
    ∃ n b1, (b.enterAt r.offset).node r = .ok (n, b1) ∧
      ((r.op.isBranch = true ∧ b1.branch r n = .ok b') ∨
        (r.op.isBranch = false ∧ ∃ b2, b1.place r n = .ok b2 ∧
          ((r.op.endsBlock = true ∧ b' = b2.clearStack) ∨
            (r.op.endsBlock = false ∧ b2.fallThrough r = .ok b')))) := by
  obtain ⟨⟨n, b1⟩, hn, h⟩ := bind_eq_ok.mp h
  refine ⟨n, b1, hn, ?_⟩
  dsimp only at h
  split at h
  · rename_i hb
    exact .inl ⟨hb, h⟩
  · rename_i hb
    obtain ⟨b2, hp, h⟩ := bind_eq_ok.mp h
    refine .inr ⟨by simpa using hb, b2, hp, ?_⟩
    split at h
    · rename_i he
      cases h
      exact .inl ⟨he, rfl⟩
    · rename_i he
      exact .inr ⟨by simpa using he, h⟩

/-! ## What a step leaves alone -/

/-- The method, the blocks apart from their trees, and the place in the code are the same. -/
structure Keeps (b b' : Builder) : Prop where
  method : b'.method = b.method
  length : b'.length = b.length
  offsets : b'.offsets = b.offsets
  current : b'.current = b.current
  visited : b'.visited = b.visited
  arguments : b'.arguments = b.arguments
  locals : b'.locals = b.locals

namespace Keeps

theorem refl (b : Builder) : b.Keeps b := ⟨rfl, rfl, rfl, rfl, rfl, rfl, rfl⟩

theorem trans {b'' : Builder} (h : b.Keeps b') (h' : b'.Keeps b'') : b.Keeps b'' :=
  ⟨h'.method.trans h.method, h'.length.trans h.length, h'.offsets.trans h.offsets,
    h'.current.trans h.current, h'.visited.trans h.visited, h'.arguments.trans h.arguments,
    h'.locals.trans h.locals⟩

theorem addRoots (b : Builder) (ns : List Node) : b.Keeps (b.addRoots ns) := by
  have hoff := offsets_addRoots b ns
  rw [addRoots_eq] at hoff ⊢
  exact ⟨rfl, rfl, hoff, rfl, rfl, rfl, rfl⟩

theorem root (b : Builder) (n : Node) : b.Keeps (b.root n) := addRoots b [n]

end Keeps

theorem Restacks.keeps (h : b.Restacks b') : b.Keeps b' := by
  obtain ⟨trees, carried, vars, rfl, -⟩ := h
  exact ⟨rfl, rfl, rfl, rfl, rfl, rfl, rfl⟩

theorem node_keeps (h : b.node r = .ok (n, b')) : b.Keeps b' := by
  cases he : r.op.elementAccess? with
  | none =>
    obtain ⟨o, b1, -, -, ho, -, -, -, hr⟩ := node_ok_plain he h
    rcases operand_ok ho with ⟨rfl, -⟩ | ⟨_, -, -, -, rfl⟩
    · exact hr.keeps
    · exact (show b.Keeps b.addTemporary from ⟨rfl, rfl, rfl, rfl, rfl, rfl, rfl⟩).trans hr.keeps
  | some access =>
    simp only [node, he] at h
    obtain ⟨-, -, -, -, -, -, -, -, hr⟩ := elementNode_ok h
    exact hr.keeps

theorem spill_keeps (h : b.spill r target reuse = .ok (stores, b')) : b.Keeps b' := by
  obtain ⟨_, _, _, _, -, -, -, -, rfl⟩ := spill_ok h
  exact ⟨rfl, rfl, rfl, rfl, rfl, rfl, rfl⟩

theorem flush_keeps (h : b.flush = .ok b') : b.Keeps b' := by
  obtain ⟨vars, rfl, -, -⟩ := flush_ok h
  obtain ⟨h1, h2, h3, h4, h5, h6, h7⟩ := Keeps.addRoots b (flushStores b.vars.size b.trees.reverse)
  exact ⟨h1, h2, h3, h4, h5, h6, h7⟩

theorem clearStack_keeps (b : Builder) : b.Keeps b.clearStack := ⟨rfl, rfl, rfl, rfl, rfl, rfl, rfl⟩

theorem onTarget_keeps (b : Builder) (target : Nat) : b.Keeps (b.onTarget target) :=
  ⟨rfl, rfl, rfl, rfl, rfl, rfl, rfl⟩

theorem branch_keeps (h : b.branch r n = .ok b') : b.Keeps b' := by
  obtain ⟨target, stores, b1, more, b2, -, hs, hm, rfl⟩ := branch_ok h
  have hb2 : b1.Keeps b2 := by
    rcases hm with ⟨-, -, hm⟩ | ⟨-, -, rfl⟩
    · exact (onTarget_keeps b1 target).trans (spill_keeps hm)
    · exact .refl _
  exact (((((spill_keeps hs).trans hb2).trans (.addRoots _ _)).trans (.addRoots _ _)).trans
    (.root _ _)).trans (clearStack_keeps _)

theorem place_keeps (h : b.place r n = .ok b') : b.Keeps b' := by
  rcases place_ok h with ⟨-, rfl⟩ | ⟨-, -, b1, hf, rfl⟩
  · exact ⟨rfl, rfl, rfl, rfl, rfl, rfl, rfl⟩
  · exact (flush_keeps hf).trans (.root _ _)

theorem fallThrough_keeps (h : b.fallThrough r = .ok b') : b.Keeps b' := by
  rcases fallThrough_ok h with ⟨-, stores, b1, hs, rfl⟩ | ⟨-, rfl⟩
  · exact (spill_keeps hs).trans (.addRoots _ _)
  · exact .refl _

theorem step_keeps (h : b.step r = .ok b') : (b.enterAt r.offset).Keeps b' := by
  obtain ⟨n, b1, hn, ⟨-, hb⟩ | ⟨-, b2, hp, ⟨-, rfl⟩ | ⟨-, hf⟩⟩⟩ := step_ok h
  · exact (node_keeps hn).trans (branch_keeps hb)
  · exact ((node_keeps hn).trans (place_keeps hp)).trans (clearStack_keeps _)
  · exact ((node_keeps hn).trans (place_keeps hp)).trans (fallThrough_keeps hf)

end Builder

theorem build_eq_ok {m : Method} {body : Body} {resolver : Resolver} {routine : Routine}
    (h : build m body resolver = .ok routine) :
    ∃ records bs f, readRecords m body resolver = .ok records ∧
      boundariesOf records body.instructions.length = .ok bs ∧
      records.foldlM Builder.step (Builder.start m body bs) = .ok f ∧ routine = f.finish := by
  obtain ⟨records, hread, h⟩ := bind_eq_ok.mp h
  obtain ⟨bs, hbs, h⟩ := bind_eq_ok.mp h
  obtain ⟨f, hf, h⟩ := bind_eq_ok.mp h
  cases h
  exact ⟨records, bs, f, hread, hbs, hf, rfl⟩

end SpuCompiler.Trees
