import SpuCompiler.Proofs.Bytecode.Shapes
import SpuCompiler.Proofs.Trees.Roots

/-!
Well-formed trees. Every node of a routine has the operand and the children that its operation
needs, a type that the typing rules give, and refers to variables and blocks of the routine; a
variable whose address is taken is marked. Each step of the builder keeps this.
-/

namespace SpuCompiler.Trees

open Metadata Bytecode

/-! ## Variables that grow -/

/-- No variable goes away, and those whose address is taken stay marked. -/
structure Variables.Grows (v v' : Variables) : Prop where
  size_le : v.size ≤ v'.size
  escapes : ∀ id x, v.get? id = some x → x.escapes = .yes →
    ∃ x', v'.get? id = some x' ∧ x'.escapes = .yes

namespace Variables.Grows

variable {v v' v'' : Variables}

theorem refl (v : Variables) : v.Grows v := ⟨le_refl _, fun _ x hx he => ⟨x, hx, he⟩⟩

theorem trans (h : v.Grows v') (h' : v'.Grows v'') : v.Grows v'' := by
  refine ⟨h.size_le.trans h'.size_le, fun id x hx he => ?_⟩
  obtain ⟨x', hx', he'⟩ := h.escapes id x hx he
  exact h'.escapes id x' hx' he'

theorem modify (v : Variables) (id : Nat) {f : Variable → Variable}
    (hf : ∀ x, x.escapes = .yes → (f x).escapes = .yes) : v.Grows (v.modify id f) := by
  refine ⟨by simp [Variables.size, Variables.modify], fun i x hx he => ?_⟩
  simp only [Variables.get?, Variables.modify, Array.getElem?_modify] at hx ⊢
  by_cases hi : id = i
  · exact ⟨f x, by simp [hi, hx], hf x he⟩
  · exact ⟨x, by simp [hi, hx], he⟩

theorem addSynthetic (v : Variables) : v.Grows v.addSynthetic.2 := by
  refine ⟨by rw [Variables.size_addSynthetic]; omega, fun id x hx he => ⟨x, ?_, he⟩⟩
  have hlt := (Array.getElem?_eq_some_iff.mp hx).1
  exact (Array.getElem?_push_lt hlt).trans ((Array.getElem?_eq_getElem hlt).symm.trans hx)

theorem addSynthetics (v : Variables) (count : Nat) : v.Grows (v.addSynthetics count).2 := by
  induction count generalizing v with
  | zero => exact refl v
  | succ count ih => exact (addSynthetic v).trans (ih _)

theorem afterStore {n : Node} (h : afterStore v n = .ok v') : v.Grows v' := by
  rcases afterStore_ok h with rfl | ⟨id, t, rfl⟩
  · exact refl _
  · exact modify v id fun _ he => he

end Variables.Grows

/-! ## Nodes -/

def Ref.shape : Ref → Shape
  | .variable _ => .variable
  | .block _ => .target

namespace Node

/-- The node has the operand and the children that its operation needs, in a routine with the
given number of blocks. -/
structure Shaped (blocks : Nat) (n : Node) : Prop where
  operand : n.op.shape? = some (n.operand.shape Ref.shape)
  left : n.left? = n.children[0]?
  right : n.right? = n.children[1]?
  count : ∀ k, n.op.pops = .fixed k → n.children.length = k
  callee : n.op.pops = .callee → n.callee?.isSome = true
  block : ∀ b, n.blockId? = some b → b < blocks

def TakesAddress (n : Node) : Prop := n.op = .ldloca ∨ n.op = .ldarga

/-- The node has the right shape, its type, and where it takes the address of a variable, that
variable is marked. -/
structure WellFormed (vars : Variables) (blocks : Nat) (n : Node) : Prop extends n.Shaped blocks where
  typed : ∃ v : Variables, v.Grows vars ∧ typeOf v n = .ok n.type
  marked : n.TakesAddress →
    ∃ id x, n.varId? = some id ∧ vars.get? id = some x ∧ x.escapes = .yes

def AllWellFormed (vars : Variables) (blocks : Nat) (n : Node) : Prop :=
  ∀ k ∈ n.postorder, k.WellFormed vars blocks

variable {vars vars' : Variables} {blocks : Nat} {n : Node}

theorem allWellFormed_iff : n.AllWellFormed vars blocks ↔
    (∀ c ∈ n.children, c.AllWellFormed vars blocks) ∧ n.WellFormed vars blocks := forall_postorder

theorem WellFormed.mono (h : n.WellFormed vars blocks) (hv : vars.Grows vars') :
    n.WellFormed vars' blocks := by
  obtain ⟨v, hgrows, ht⟩ := h.typed
  refine ⟨h.toShaped, ⟨v, hgrows.trans hv, ht⟩, fun haddress => ?_⟩
  obtain ⟨id, x, hid, hx, he⟩ := h.marked haddress
  obtain ⟨x', hx', he'⟩ := hv.escapes id x hx he
  exact ⟨id, x', hid, hx', he'⟩

theorem AllWellFormed.mono (h : n.AllWellFormed vars blocks) (hv : vars.Grows vars') :
    n.AllWellFormed vars' blocks := fun k hk => (h k hk).mono hv

/-- The rules look at everything but the type of the node itself. -/
theorem typeOf_withType (v : Variables) (t : StackType) (n : Node) :
    typeOf v (n.withType t) = typeOf v n := by
  cases n <;> rfl

theorem Shaped.withType (h : n.Shaped blocks) (t : StackType) : (n.withType t).Shaped blocks := by
  cases n <;> exact ⟨h.operand, h.left, h.right, h.count, h.callee, h.block⟩

theorem varId?_withType (t : StackType) (n : Node) : (n.withType t).varId? = n.varId? := by
  cases n <;> rfl

/-- A node that refers to a variable has a type only where the variable is there. -/
theorem exists_variable {v : Variables} {t : StackType} (h : typeOf v n = .ok t)
    (hshape : n.op.shape? = some .variable) : ∃ id x, n.varId? = some id ∧ v.get? id = some x := by
  have hvariable : ∀ {x : Variable}, n.variableOf v = .ok x →
      ∃ id x, n.varId? = some id ∧ v.get? id = some x := by
    intro x hx
    unfold variableOf at hx
    split at hx
    · rename_i y hy
      obtain ⟨id, hid, hget⟩ := Option.bind_eq_some_iff.mp hy
      exact ⟨id, y, hid, hget⟩
    · cases hx
  unfold typeOf at h
  cases hop : n.op with
  | ldarg | ldarga | starg | ldloc | ldloca | stloc =>
    simp only [hop] at h
    obtain ⟨x, hx, -⟩ := bind_eq_ok.mp h
    exact hvariable hx
  | ldc c => cases c <;> simp [hop, Op.shape?] at hshape
  | _ => simp [hop, Op.shape?] at hshape

theorem WellFormed.exists_variable (h : n.WellFormed vars blocks)
    (hshape : n.op.shape? = some .variable) :
    ∃ id x, n.varId? = some id ∧ vars.get? id = some x := by
  obtain ⟨v, hgrows, ht⟩ := h.typed
  obtain ⟨id, x, hid, hx⟩ := Node.exists_variable ht hshape
  have hlt : id < vars.size := (Array.getElem?_eq_some_iff.mp hx).1.trans_le hgrows.size_le
  exact ⟨id, _, hid, Array.getElem?_eq_getElem hlt⟩

theorem WellFormed.var_lt (h : n.WellFormed vars blocks) {id : Nat} (hid : n.varId? = some id) :
    id < vars.size := by
  have hshape : n.op.shape? = some .variable := by
    rw [h.operand]
    unfold varId? at hid
    split at hid
    · rename_i hoperand
      rw [hoperand]
      rfl
    · cases hid
  obtain ⟨id', x, hid', hx⟩ := h.exists_variable hshape
  obtain rfl : id' = id := Option.some.inj (hid'.symm.trans hid)
  exact (Array.getElem?_eq_some_iff.mp hx).1

end Node

namespace Builder

variable {b b' : Builder} {n : Node} {ns out : List Node} {id count offset target : Nat}
  {r : Record} {o : Operand Ref} {op : Op} {access : ElementAccess} {value : Option Node}
  {reuse : Option (List Nat)}

/-- The tree fits into the routine as it stands. -/
def Admits (b : Builder) (n : Node) : Prop := n.AllWellFormed b.vars b.blocks.size

/-- The trees on the stack and in the blocks fit, and the arguments have variables. -/
structure WellFormed (b : Builder) : Prop where
  trees : ∀ n ∈ b.trees, b.Admits n
  roots : ∀ k ∈ b.blocks, ∀ n ∈ k.roots, b.Admits n
  arguments : ∀ id ∈ b.arguments, id < b.vars.size

/-- Variables were added or given a type, and trees were added to blocks. -/
structure Later (b b' : Builder) : Prop where
  blocks : b'.blocks.size = b.blocks.size
  vars : b.vars.Grows b'.vars

theorem Later.refl (b : Builder) : b.Later b := ⟨rfl, .refl _⟩

theorem Later.trans {b'' : Builder} (h : b.Later b') (h' : b'.Later b'') : b.Later b'' :=
  ⟨h'.blocks.trans h.blocks, h.vars.trans h'.vars⟩

theorem Admits.later (h : b.Admits n) (hl : b.Later b') : b'.Admits n := by
  unfold Admits
  rw [hl.blocks]
  exact h.mono hl.vars

/-- Blocks that are left alone keep their trees. -/
theorem WellFormed.restack (h : b.WellFormed) (hblocks : b'.blocks = b.blocks)
    (harguments : b'.arguments = b.arguments) (hvars : b.vars.Grows b'.vars)
    (htrees : ∀ n ∈ b'.trees, b'.Admits n) : b'.WellFormed := by
  refine ⟨htrees, ?_, ?_⟩
  · rw [hblocks]
    exact fun k hk n hn => (h.roots k hk n hn).later ⟨by rw [hblocks], hvars⟩
  · rw [harguments]
    exact fun id hid => (h.arguments id hid).trans_le hvars.size_le

theorem WellFormed.withVars {vars : Variables} (h : b.WellFormed) (hvars : b.vars.Grows vars) :
    { b with vars := vars }.WellFormed :=
  h.restack rfl rfl hvars fun n hn => (h.trees n hn).later ⟨rfl, hvars⟩

theorem later_addRoots (b : Builder) (ns : List Node) : b.Later (b.addRoots ns) := by
  rw [addRoots_eq]
  exact ⟨by simp, .refl _⟩

theorem WellFormed.addRoots (h : b.WellFormed) (hns : ∀ n ∈ ns, b.Admits n) :
    (b.addRoots ns).WellFormed := by
  have hl := later_addRoots b ns
  rw [addRoots_eq] at hl ⊢
  refine ⟨fun n hn => (h.trees n hn).later hl, ?_, h.arguments⟩
  rw [← addRoots_eq] at hl ⊢
  exact forall_roots_addRoots (fun k hk n hn => (h.roots k hk n hn).later hl)
    fun n hn => (hns n hn).later hl

theorem WellFormed.root (h : b.WellFormed) (hn : b.Admits n) : (b.root n).WellFormed := by
  have hroots : ∀ k ∈ [n], b.Admits k := by simpa using hn
  exact h.addRoots hroots

/-! ## Values -/

/-- A node of the right shape, over children that fit, fits once it has a type. -/
theorem deriveType_admits {n' : Node} (h : b.deriveType n = .ok (n', b'))
    (hs : n.Shaped b.blocks.size) (hchildren : ∀ c ∈ n.children, b.Admits c)
    (hm : n.TakesAddress →
      ∃ id x, n.varId? = some id ∧ b.vars.get? id = some x ∧ x.escapes = .yes) :
    (∃ vars, b' = { b with vars := vars } ∧ b.vars.Grows vars) ∧ b'.Admits n' := by
  unfold deriveType at h
  split at h
  · rename_i n1 vars hd
    cases h
    obtain ⟨t, ht, hd⟩ := bind_eq_ok.mp hd
    obtain ⟨vs, hvs, hd⟩ := bind_eq_ok.mp hd
    cases hd
    have hgrows := Variables.Grows.afterStore hvs
    refine ⟨⟨vars, rfl, hgrows⟩, Node.allWellFormed_iff.mpr ⟨?_, hs.withType t, ?_, ?_⟩⟩
    · rw [Node.children_withType]
      exact fun c hc => (hchildren c hc).mono hgrows
    · exact ⟨b.vars, hgrows, by rw [Node.typeOf_withType, Node.type_withType, ht]⟩
    · intro haddress
      rw [Node.TakesAddress, Node.op_withType] at haddress
      obtain ⟨id, x, hid, hx, he⟩ := hm haddress
      obtain ⟨x', hx', he'⟩ := hgrows.escapes id x hx he
      exact ⟨id, x', by rw [Node.varId?_withType, hid], hx', he'⟩
  · cases h

theorem load_admits (h : b.load id offset = .ok (n, b')) :
    (∃ vars, b' = { b with vars := vars } ∧ b.vars.Grows vars) ∧ b'.Admits n := by
  refine deriveType_admits h ⟨rfl, rfl, rfl, ?_, nofun, nofun⟩ (by simp [Node.children]) ?_
  · rintro k ⟨⟩
    rfl
  · rintro (⟨⟨⟩⟩ | ⟨⟨⟩⟩)

theorem store_admits {value s : Node} (hv : b.Admits value)
    (h : b.store id value offset = .ok (s, b')) :
    (∃ vars, b' = { b with vars := vars } ∧ b.vars.Grows vars) ∧ b'.Admits s := by
  refine deriveType_admits h ⟨rfl, rfl, rfl, ?_, nofun, nofun⟩ ?_ ?_
  · rintro k ⟨⟩
    rfl
  · simpa [Node.children] using hv
  · rintro (⟨⟨⟩⟩ | ⟨⟨⟩⟩)

theorem pop_admits (hb : b.WellFormed) (h : b.pop r = .ok (n, b')) :
    b'.WellFormed ∧ b.Later b' ∧ b'.Admits n := by
  unfold pop at h
  split at h
  · rename_i trees htrees
    cases h
    have hall : ∀ k ∈ n :: trees, b.Admits k := htrees ▸ hb.trees
    exact ⟨hb.restack rfl rfl (.refl _) fun k hk => hall k (by simp [hk]), ⟨rfl, .refl _⟩,
      hall n (by simp)⟩
  · split at h
    · obtain ⟨⟨vars, rfl, hgrows⟩, hn⟩ := load_admits h
      exact ⟨hb.restack rfl rfl hgrows fun k hk => (hb.trees k hk).later ⟨rfl, hgrows⟩,
        ⟨rfl, hgrows⟩, hn⟩
    · cases h

theorem popMany_admits {values : List Node} (hb : b.WellFormed) (hvalues : ∀ n ∈ values, b.Admits n)
    (h : b.popMany r values count = .ok (out, b')) :
    b'.WellFormed ∧ b.Later b' ∧ ∀ n ∈ out, b'.Admits n := by
  induction count generalizing b values with
  | zero =>
    cases h
    exact ⟨hb, .refl _, hvalues⟩
  | succ count ih =>
    obtain ⟨⟨n, b1⟩, hp, h⟩ := bind_eq_ok.mp h
    obtain ⟨hb1, hl1, hn⟩ := pop_admits hb hp
    have hmore : ∀ k ∈ n :: values, b1.Admits k := by
      intro k hk
      rcases List.mem_cons.mp hk with rfl | hk
      · exact hn
      · exact (hvalues k hk).later hl1
    obtain ⟨hb', hl, hout⟩ := ih hb1 hmore h
    exact ⟨hb', hl1.trans hl, hout⟩

theorem length_popMany (h : b.popMany r [] count = .ok (out, b')) : out.length = count := by
  obtain ⟨es, args, rfl, -, hys, hlen, -⟩ := popMany_ok h
  rw [List.append_nil, ← hys.length_eq, hlen]

/-! ## Nodes of records -/

theorem left?_plain (head : Head) (values : List Node) :
    (Node.plain head values[0]? values[1]?).left? = values[0]? := by
  cases values[0]? <;> cases values[1]? <;> rfl

theorem right?_plain (head : Head) (values : List Node) :
    (Node.plain head values[0]? values[1]?).right? = values[1]? := by
  cases values[0]? <;> cases values[1]? <;> rfl

/-- The operand of a node has the kind that its record has, and a block is one of the routine. -/
theorem operand_shaped (h : b.operand r = .ok (o, b')) :
    o.shape Ref.shape = r.operand.shape Place.shape ∧
      ∀ k, o = .ref (.block k) → k < b.blocks.size := by
  rcases operand_ok h with ⟨-, hrefers⟩ | ⟨i, hr, -, rfl, -⟩
  · cases hr : r.operand with
    | ref p =>
      rw [hr] at hrefers
      cases p with
      | localVar i | argument i =>
        cases hrefers
        exact ⟨rfl, nofun⟩
      | temporary i =>
        obtain ⟨id, -, rfl⟩ := hrefers
        exact ⟨rfl, nofun⟩
      | target t =>
        obtain ⟨k, hk, rfl⟩ := hrefers
        refine ⟨rfl, ?_⟩
        rintro k' ⟨⟩
        exact (Array.findIdx?_eq_some_iff_getElem.mp hk).1
    | _ =>
      rw [hr] at hrefers
      cases hrefers
      exact ⟨rfl, nofun⟩
  · rw [hr]
    exact ⟨rfl, nofun⟩

theorem operand_later (hb : b.WellFormed) (h : b.operand r = .ok (o, b')) :
    b'.WellFormed ∧ b.Later b' := by
  rcases operand_ok h with ⟨rfl, -⟩ | ⟨i, -, -, -, rfl⟩
  · exact ⟨hb, .refl _⟩
  · have hgrows := Variables.Grows.addSynthetic b.vars
    exact ⟨hb.restack rfl rfl hgrows fun n hn => (hb.trees n hn).later ⟨rfl, hgrows⟩, rfl, hgrows⟩

structure Prepared (b : Builder) (r : Record) (n : Node) : Prop where
  op : n.op = r.op
  shaped : n.Shaped b.blocks.size
  children : ∀ c ∈ n.children, b.Admits c

theorem callNode_prepared (hb : b.WellFormed) (hpops : r.op.pops = .callee)
    (hshape : r.op.shape? = some (o.shape Ref.shape)) (h : b.callNode r o = .ok (n, b')) :
    b'.WellFormed ∧ b.Later b' ∧ b'.Prepared r n := by
  unfold callNode at h
  split at h
  · rename_i c
    obtain ⟨⟨args, b1⟩, hp, h⟩ := bind_eq_ok.mp h
    cases h
    obtain ⟨hb', hl, hargs⟩ := popMany_admits hb (by simp) hp
    refine ⟨hb', hl, rfl, ⟨hshape, ?_, rfl, ?_, fun _ => rfl, nofun⟩, hargs⟩
    · exact List.head?_eq_getElem?
    · intro k hk
      simp [Node.op, Node.head, hpops] at hk
  · cases h

theorem plainNode_prepared (hb : b.WellFormed) (he : r.op.elementAccess? = none)
    (hshape : r.op.shape? = some (o.shape Ref.shape))
    (hblock : ∀ k, o = .ref (.block k) → k < b.blocks.size) (h : b.plainNode r o = .ok (n, b')) :
    b'.WellFormed ∧ b.Later b' ∧ b'.Prepared r n := by
  have hblocks : ∀ {n : Node}, n.operand = o → ∀ k, n.blockId? = some k → k < b.blocks.size := by
    intro n hn k hk
    refine hblock k ?_
    unfold Node.blockId? at hk
    split at hk
    · cases hk
      rw [← hn]
      assumption
    · cases hk
  unfold plainNode at h
  dsimp only at h
  split at h
  · exact callNode_prepared hb ‹_› hshape h
  · rename_i hpops
    split at h
    · cases h
      refine ⟨hb, .refl _, rfl, ⟨hshape, rfl, rfl, ?_, ?_, hblocks rfl⟩, by simp [Node.children]⟩
      · intro k hk
        simp [Node.op, Node.head, hpops] at hk
      · intro hk
        simp [Node.op, Node.head, hpops] at hk
    · obtain ⟨⟨value, b1⟩, hp, h⟩ := bind_eq_ok.mp h
      cases h
      obtain ⟨hb', hl, hvalue⟩ := pop_admits hb hp
      refine ⟨hb', hl, rfl, ⟨hshape, rfl, rfl, ?_, ?_, ?_⟩, by simpa [Node.children] using hvalue⟩
      · intro k hk
        simp [Node.op, Node.head, hpops] at hk
      · intro hk
        simp [Node.op, Node.head, hpops] at hk
      · rw [hl.blocks]
        exact hblocks rfl
  · rename_i count hpops
    obtain ⟨⟨values, b1⟩, hp, h⟩ := bind_eq_ok.mp h
    cases h
    obtain ⟨hb', hl, hvalues⟩ := popMany_admits hb (by simp) hp
    have hlen := length_popMany hp
    have hchildren := children_plain { op := r.op, operand := o, offset := r.offset }
      (hlen.trans_le (pops_le_two he hpops))
    refine ⟨hb', hl, ?_, ⟨?_, ?_, ?_, ?_, ?_, ?_⟩, ?_⟩
    · simp [Node.op, head_plain]
    · simpa [Node.op, Node.operand, head_plain] using hshape
    · rw [hchildren, left?_plain]
    · rw [hchildren, right?_plain]
    · intro k hk
      simp only [Node.op, head_plain, hpops, Pops.fixed.injEq] at hk
      rw [hchildren, hlen, hk]
    · intro hk
      simp [Node.op, head_plain, hpops] at hk
    · rw [hl.blocks]
      exact hblocks (by simp [Node.operand, head_plain])
    · rw [hchildren]
      exact hvalues

theorem later_markAddress (b : Builder) (n : Node) : b.Later (b.markAddress n) := by
  have hmark : ∀ id, b.vars.Grows (b.vars.markEscaping id) := fun id => .modify _ _ fun _ _ => rfl
  unfold markAddress
  split
  · exact ⟨rfl, hmark _⟩
  · exact ⟨rfl, hmark _⟩
  · exact .refl b

theorem WellFormed.markAddress (h : b.WellFormed) (n : Node) : (b.markAddress n).WellFormed := by
  have hl := later_markAddress b n
  refine h.restack ?_ ?_ hl.vars ?_
  · unfold Builder.markAddress
    split <;> rfl
  · unfold Builder.markAddress
    split <;> rfl
  · intro k hk
    refine (h.trees k ?_).later hl
    unfold Builder.markAddress at hk
    split at hk <;> exact hk

/-- A variable whose address is taken is marked before the node has a type. -/
theorem marked_of_takesAddress {t : StackType} (h : typeOf (b.markAddress n).vars n = .ok t)
    (haddress : n.TakesAddress) :
    ∃ id x, n.varId? = some id ∧ (b.markAddress n).vars.get? id = some x ∧ x.escapes = .yes := by
  have hshape : n.op.shape? = some .variable := by
    rcases haddress with hop | hop <;> rw [hop] <;> rfl
  obtain ⟨id, x, hid, hx⟩ := Node.exists_variable h hshape
  have hvars : (b.markAddress n).vars = b.vars.markEscaping id := by
    rcases haddress with hop | hop <;> simp [Builder.markAddress, hop, hid]
  refine ⟨id, x, hid, hx, ?_⟩
  rw [hvars] at hx
  simp only [Variables.get?, Variables.markEscaping, Variables.modify, Array.getElem?_modify] at hx
  obtain ⟨y, -, rfl⟩ := Option.map_eq_some_iff.mp hx
  rfl

/-- An access through an address has that address and, where it stores, a value. -/
theorem indirect_shaped (haccess : op.elementAccess? = some access)
    (hstore : access.isStore = value.isSome) (element : Ty) (address : Node) (offset blocks : Nat) :
    (Node.plain { op := access.indirect, operand := indirectOperand access element,
                  offset := offset } (some address) value).Shaped blocks := by
  unfold Op.elementAccess? at haccess
  split at haccess <;> cases haccess <;> cases value <;> cases hstore
  all_goals refine ⟨rfl, rfl, rfl, ?_, nofun, nofun⟩
  all_goals rintro k ⟨⟩
  all_goals rfl

theorem indirect_takes_no_address (haccess : op.elementAccess? = some access) :
    ¬ (access.indirect = .ldloca ∨ access.indirect = .ldarga) := by
  unfold Op.elementAccess? at haccess
  split at haccess <;> cases haccess <;> simp

theorem elementOf_admits (hb : b.WellFormed) (haccess : r.op.elementAccess? = some access)
    (hstore : access.isStore = value.isSome) (hvalue : ∀ v ∈ value, b.Admits v)
    (h : b.elementOf r access value = .ok (n, b')) : b'.WellFormed ∧ b.Later b' ∧ b'.Admits n := by
  obtain ⟨⟨index, b1⟩, hi, h⟩ := bind_eq_ok.mp h
  obtain ⟨⟨array, b2⟩, ha, h⟩ := bind_eq_ok.mp h
  obtain ⟨⟨address, b3⟩, hd, h⟩ := bind_eq_ok.mp h
  obtain ⟨hb1, hl1, hindex⟩ := pop_admits hb hi
  obtain ⟨hb2, hl2, harray⟩ := pop_admits hb1 ha
  have haddress : (∃ vars, b3 = { b2 with vars := vars } ∧ b2.vars.Grows vars) ∧
      b3.Admits address := by
    refine deriveType_admits hd ⟨rfl, rfl, rfl, ?_, nofun, nofun⟩ ?_ ?_
    · rintro k ⟨⟩
      rfl
    · simpa [Node.children] using ⟨harray, hindex.later hl2⟩
    · rintro (⟨⟨⟩⟩ | ⟨⟨⟩⟩)
  obtain ⟨⟨vars, rfl, hgrows⟩, haddress⟩ := haddress
  have hl3 : b.Later { b2 with vars := vars } := (hl1.trans hl2).trans ⟨rfl, hgrows⟩
  have hn := deriveType_admits h (indirect_shaped haccess hstore _ address _ _) ?_ ?_
  · obtain ⟨⟨vars', rfl, hgrows'⟩, hn⟩ := hn
    exact ⟨hb2.withVars (hgrows.trans hgrows'), hl3.trans ⟨rfl, hgrows'⟩, hn⟩
  · cases value with
    | none => simpa [Node.plain, Node.children] using haddress
    | some v => simpa [Node.plain, Node.children] using ⟨haddress, (hvalue v rfl).later hl3⟩
  · intro haddress
    rw [Node.TakesAddress, Node.op, head_plain] at haddress
    exact absurd haddress (indirect_takes_no_address haccess)

theorem elementNode_admits (hb : b.WellFormed) (haccess : r.op.elementAccess? = some access)
    (h : b.elementNode r access = .ok (n, b')) : b'.WellFormed ∧ b.Later b' ∧ b'.Admits n := by
  rw [elementNode_eq] at h
  split at h
  · rename_i hs
    obtain ⟨⟨value, b1⟩, hp, h⟩ := bind_eq_ok.mp h
    obtain ⟨hb1, hl1, hvalue⟩ := pop_admits hb hp
    obtain ⟨hb', hl, hn⟩ :=
      elementOf_admits hb1 haccess (by simpa using hs) (by simpa using hvalue) h
    exact ⟨hb', hl1.trans hl, hn⟩
  · rename_i hs
    exact elementOf_admits hb haccess (by simpa using hs) (by simp) h

/-- The node of a record fits. -/
theorem node_admits (hb : b.WellFormed) (hr : r.Shaped) (h : b.node r = .ok (n, b')) :
    b'.WellFormed ∧ b.Later b' ∧ b'.Admits n := by
  unfold node at h
  split at h
  · exact elementNode_admits hb ‹_› h
  · rename_i he
    obtain ⟨⟨o, b1⟩, ho, h⟩ := bind_eq_ok.mp h
    obtain ⟨⟨n1, b2⟩, hn, h⟩ := bind_eq_ok.mp h
    obtain ⟨hb1, hl1⟩ := operand_later hb ho
    obtain ⟨hshape, hblock⟩ := operand_shaped ho
    obtain ⟨hb2, hl2, hprepared⟩ :=
      plainNode_prepared hb1 he (hshape ▸ hr) (hl1.blocks ▸ hblock) hn
    have hl3 := later_markAddress b2 n1
    obtain ⟨t, -, ht, -⟩ := deriveType_ok h
    obtain ⟨⟨vars, rfl, hgrows⟩, hn'⟩ := deriveType_admits h (hl3.blocks ▸ hprepared.shaped)
      (fun c hc => (hprepared.children c hc).later hl3) (marked_of_takesAddress ht)
    exact ⟨(hb2.markAddress n1).withVars hgrows,
      ((hl1.trans hl2).trans hl3).trans ⟨rfl, hgrows⟩, hn'⟩

/-! ## Stores -/

theorem flushTrees_wellFormed (hb : b.WellFormed) (hns : ∀ n ∈ ns, b.Admits n)
    (h : b.flushTrees ns = .ok b') : b'.WellFormed ∧ b.Later b' := by
  induction ns generalizing b with
  | nil =>
    cases h
    exact ⟨hb, .refl _⟩
  | cons n ns ih =>
    obtain ⟨⟨s, b1⟩, hs, h⟩ := bind_eq_ok.mp h
    have hfresh := Variables.Grows.addSynthetic b.vars
    have hn : { b with vars := b.vars.addSynthetic.2 }.Admits n :=
      (hns n (by simp)).later ⟨rfl, hfresh⟩
    obtain ⟨⟨vars, rfl, hgrows⟩, hs⟩ := store_admits hn hs
    have hroot := (hb.withVars (hfresh.trans hgrows)).root hs
    have hvars : b.Later { b with vars := vars } := ⟨rfl, hfresh.trans hgrows⟩
    have hl := hvars.trans (later_addRoots _ [s])
    have hcarried : { { b with vars := vars }.root s with
        carried := b.vars.size :: b.carried }.WellFormed :=
      hroot.restack rfl rfl (.refl _) hroot.trees
    obtain ⟨hb', hl'⟩ :=
      ih hcarried (fun k hk => (hns k (by simp [hk])).later ⟨hl.blocks, hl.vars⟩) h
    exact ⟨hb', hl.trans ⟨hl'.blocks, hl'.vars⟩⟩

theorem flush_wellFormed (hb : b.WellFormed) (h : b.flush = .ok b') :
    b'.WellFormed ∧ b.Later b' := by
  have hempty : { b with trees := [] }.WellFormed := hb.restack rfl rfl (.refl _) (by simp)
  have htrees : ∀ n ∈ b.trees.reverse, { b with trees := [] }.Admits n :=
    fun n hn => hb.trees n (by simpa using hn)
  obtain ⟨hb', hl⟩ := flushTrees_wellFormed hempty htrees h
  exact ⟨hb', hl.blocks, hl.vars⟩

def AdmitsAll (b : Builder) (pairs : List (Entry × Nat)) : Prop :=
  ∀ n id, (Entry.tree n, id) ∈ pairs → b.Admits n

theorem storeAll_wellFormed {acc out : Array Node} {pairs : List (Entry × Nat)} (hb : b.WellFormed)
    (hacc : ∀ n ∈ acc, b.Admits n) (hpairs : b.AdmitsAll pairs)
    (h : b.storeAll offset acc pairs = .ok (out, b')) :
    b'.WellFormed ∧ b.Later b' ∧ ∀ n ∈ out, b'.Admits n := by
  induction pairs generalizing b acc with
  | nil =>
    cases h
    exact ⟨hb, .refl _, hacc⟩
  | cons pair rest ih =>
    obtain ⟨e, id⟩ := pair
    have hrest : b.AdmitsAll rest := fun n i hn => hpairs n i (by simp [hn])
    -- the store of a value, and what comes behind it
    have hstore : ∀ {b1 : Builder} {value : Node}, b1.WellFormed → b.Later b1 → b1.Admits value →
        (b1.store id value offset >>= fun x => x.2.storeAll offset (acc.push x.1) rest) =
          .ok (out, b') → b'.WellFormed ∧ b.Later b' ∧ ∀ n ∈ out, b'.Admits n := by
      intro b1 value hb1 hl1 hvalue h
      obtain ⟨⟨s, b2⟩, hs, h⟩ := bind_eq_ok.mp h
      obtain ⟨⟨vars, rfl, hgrows⟩, hs⟩ := store_admits hvalue hs
      have hl2 : b.Later { b1 with vars := vars } := hl1.trans ⟨rfl, hgrows⟩
      have hmore : ∀ n ∈ acc.push s, { b1 with vars := vars }.Admits n := by
        intro n hn
        rcases Array.mem_push.mp hn with hn | rfl
        · exact (hacc n hn).later hl2
        · exact hs
      obtain ⟨hb', hl', hout⟩ :=
        ih (hb1.withVars hgrows) hmore (fun n i hn => (hrest n i hn).later hl2) h
      exact ⟨hb', hl2.trans hl', hout⟩
    cases e with
    | carried source =>
      simp only [storeAll] at h
      split at h
      · exact ih hb hacc hrest h
      · obtain ⟨⟨value, b1⟩, hload, h⟩ := bind_eq_ok.mp h
        obtain ⟨⟨vars, rfl, hgrows⟩, hvalue⟩ := load_admits hload
        exact hstore (hb.withVars hgrows) ⟨rfl, hgrows⟩ hvalue h
    | tree value => exact hstore hb (.refl _) (hpairs value id (by simp)) h

theorem entryVariables_grows {ids : List Nat}
    (h : b.entryVariables r target reuse = .ok (ids, b')) : b.vars.Grows b'.vars := by
  unfold entryVariables at h
  dsimp only at h
  split at h
  · split at h
    · cases h
      exact .refl _
    · cases h
  · split at h
    · cases h
    · cases h
      split
      · exact .refl _
      · exact .addSynthetics _ _

theorem spill_wellFormed {stores : List Node} (hb : b.WellFormed)
    (h : b.spill r target reuse = .ok (stores, b')) :
    b'.WellFormed ∧ b.Later b' ∧ ∀ s ∈ stores, b'.Admits s := by
  obtain ⟨⟨ids, b1⟩, he, h⟩ := bind_eq_ok.mp h
  have hgrows := entryVariables_grows he
  obtain ⟨-, vars, entries, -, rfl⟩ := entryVariables_ok he
  obtain ⟨⟨out, b2⟩, hs, h⟩ := bind_eq_ok.mp h
  cases h
  have hl : b.Later { b with vars := vars, entries := entries }.clearStack := ⟨rfl, hgrows⟩
  have hcleared : { b with vars := vars, entries := entries }.clearStack.WellFormed :=
    hb.restack rfl rfl hgrows (by simp [clearStack])
  have hentries : { b with vars := vars, entries := entries }.clearStack.AdmitsAll
      (b.stackEntries.zip ids) :=
    fun n id hn => (hb.trees n (mem_trees_iff.mp (List.of_mem_zip hn).1)).later hl
  obtain ⟨hb', hl', hout⟩ := storeAll_wellFormed hcleared (by simp) hentries hs
  exact ⟨hb', hl.trans hl', by simpa using hout⟩

/-! ## Steps -/

variable (hb : b.WellFormed)

include hb

theorem clearStack_wellFormed : b.clearStack.WellFormed :=
  hb.restack rfl rfl (.refl _) (by simp [clearStack])

theorem place_wellFormed (hn : b.Admits n) (h : b.place r n = .ok b') : b'.WellFormed := by
  rcases place_ok h with ⟨-, rfl⟩ | ⟨-, -, b1, hf, rfl⟩
  · refine hb.restack rfl rfl (.refl _) ?_
    intro k hk
    rcases List.mem_cons.mp hk with rfl | hk
    · exact hn
    · exact hb.trees k hk
  · obtain ⟨hb1, hl⟩ := flush_wellFormed hb hf
    exact hb1.root (hn.later hl)

theorem branch_wellFormed (hn : b.Admits n) (h : b.branch r n = .ok b') : b'.WellFormed := by
  obtain ⟨target, stores, b1, more, b2, -, hs, hm, rfl⟩ := branch_ok h
  obtain ⟨hb1, hl1, hstores⟩ := spill_wellFormed hb hs
  have hrest : b2.WellFormed ∧ b1.Later b2 ∧ ∀ s ∈ more, b2.Admits s := by
    rcases hm with ⟨-, -, hm⟩ | ⟨-, rfl, rfl⟩
    · have htarget : (b1.onTarget target).WellFormed := hb1.restack rfl rfl (.refl _) (by simp [onTarget])
      obtain ⟨hb2, hl2, hmore⟩ := spill_wellFormed htarget hm
      exact ⟨hb2, ⟨hl2.blocks, hl2.vars⟩, hmore⟩
    · exact ⟨hb1, .refl _, by simp⟩
  obtain ⟨hb2, hl2, hmore⟩ := hrest
  have hl3 := later_addRoots b2 stores
  have hl4 := later_addRoots (b2.addRoots stores) more
  have hstored := hb2.addRoots fun s hs => (hstores s hs).later hl2
  have hmoved := hstored.addRoots fun s hs => (hmore s hs).later hl3
  exact clearStack_wellFormed
    (hmoved.root (hn.later (((hl1.trans hl2).trans hl3).trans hl4)))

theorem fallThrough_wellFormed (h : b.fallThrough r = .ok b') : b'.WellFormed := by
  rcases fallThrough_ok h with ⟨-, stores, b1, hs, rfl⟩ | ⟨-, rfl⟩
  · obtain ⟨hb1, -, hstores⟩ := spill_wellFormed hb hs
    exact hb1.addRoots hstores
  · exact hb

theorem enterAt_wellFormed (offset : Nat) : (b.enterAt offset).WellFormed := by
  unfold enterAt
  split
  · exact hb
  · split
    · exact hb.restack rfl rfl (.refl _) (by simp [enter])
    · exact hb

theorem step_wellFormed (hr : r.Shaped) (h : b.step r = .ok b') : b'.WellFormed := by
  obtain ⟨n, b1, hn, hrest⟩ := step_ok h
  obtain ⟨hb1, -, hn⟩ := node_admits (enterAt_wellFormed hb r.offset) hr hn
  rcases hrest with ⟨-, hbranch⟩ | ⟨-, b2, hp, hend⟩
  · exact branch_wellFormed hb1 hn hbranch
  · have hb2 := place_wellFormed hb1 hn hp
    rcases hend with ⟨-, rfl⟩ | ⟨-, hf⟩
    · exact clearStack_wellFormed hb2
    · exact fallThrough_wellFormed hb2 hf

theorem foldlM_wellFormed {records : List Record} (hr : ∀ r ∈ records, r.Shaped)
    (h : records.foldlM step b = .ok b') : b'.WellFormed :=
  foldlM_invariant (fun _ _ r hmem hb => step_wellFormed hb (hr r hmem)) hb h

end Builder

structure Routine.WellFormed (r : Routine) : Prop where
  roots : ∀ b ∈ r.blocks, ∀ n ∈ b.roots, n.AllWellFormed r.vars r.blocks.size
  arguments : ∀ id ∈ r.arguments, id < r.vars.size

theorem Builder.start_wellFormed (m : Method) (body : Body) (bs : List Nat) :
    (start m body bs).WellFormed := by
  refine ⟨by simp [start], ?_, ?_⟩
  · exact forall_roots_start
  · intro id hid
    have hlt : id < m.argumentTypes.length := List.mem_range.mp hid
    simp only [start, Variables.size_declareAll]
    omega

theorem build_wellFormed {m : Method} {body : Body} {resolver : Resolver} {routine : Routine}
    (h : build m body resolver = .ok routine) : routine.WellFormed := by
  obtain ⟨records, bs, f, hrecords, -, hf, rfl⟩ := build_eq_ok h
  have hshaped := Reader.shaped_readAll (mapError_eq_ok.mp hrecords)
  have hwf := Builder.foldlM_wellFormed (Builder.start_wellFormed m body bs) hshaped hf
  exact ⟨hwf.roots, hwf.arguments⟩

end SpuCompiler.Trees
