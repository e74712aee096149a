import SpuCompiler.Proofs.Trees.WellFormed

/-!
What the typing rules need and give. A node with the children that its operation takes has all the
types that the rules ask for, and a variable with a type can be read; so the rules fail only where
types do not fit. Where nothing that a node refers to has type `void`, its own type is not `void`.
-/

namespace SpuCompiler

namespace Metadata

/-- The type is not `void`, nor an array of it or a pointer to it. -/
def Ty.VoidFree : Ty → Prop
  | .basic b => b ≠ .void
  | .reference _ | .struct _ => True
  | .array e => e.VoidFree
  | .byRef p => p.VoidFree
termination_by structural t => t

/-- No parameter or declaring type of the method is `void`, and its result is wholly `void` or
free of it. -/
structure Method.VoidFree (m : Method) : Prop where
  parameters : ∀ t ∈ m.parameters, t.VoidFree
  declaring : ∀ t, m.declaring = some t → t.VoidFree
  returnType : m.returnType = .void ∨ m.returnType.VoidFree

/-- In what a body refers to, `void` is only the result of methods. -/
structure Resolver.VoidFree (r : Resolver) : Prop where
  field : ∀ token f, r.field token = some f → f.ty.VoidFree
  method : ∀ token m, r.method token = some m → m.VoidFree
  type : ∀ token t, r.type token = some t → t.VoidFree

theorem Method.VoidFree.argumentTypes {m : Method} (h : m.VoidFree) :
    ∀ t ∈ m.argumentTypes, t.VoidFree := by
  intro t ht
  rcases List.mem_append.mp ht with ht | ht
  · unfold Method.thisType at ht
    split at ht
    · cases hd : m.declaring with
      | none =>
        simp only [hd, Option.toList_some, List.mem_singleton] at ht
        rw [ht]
        simp [Ty.VoidFree]
      | some ty =>
        simp only [hd, Option.toList_some, List.mem_singleton] at ht
        have hty := h.declaring ty hd
        rw [ht]
        split
        · exact hty
        · exact hty
    · simp at ht
  · exact h.parameters t ht

end Metadata

namespace Trees

open Metadata Bytecode

namespace StackType

def VoidFree : StackType → Prop
  | .void => False
  | .objectRef t | .valueType t | .managedPointer t => t.VoidFree
  | _ => True

theorem VoidFree.ne_void {t : StackType} (h : t.VoidFree) : t ≠ .void := by
  rintro rfl
  exact h

theorem voidFree_ofTy {t : Ty} (h : t.VoidFree) : (ofTy t).VoidFree := by
  cases t with
  | basic b => cases b <;> simp_all [ofTy, ofBasic, VoidFree, Ty.VoidFree]
  | _ => exact h

end StackType

/-! ## Types of variables -/

/-- Errors that the rules give for a missing operand and for a variable without a type. -/
def TypeError.Avoided : TypeError → Prop
  | .missingChild _ _ | .untypedVariable _ _ _ => True
  | _ => False

namespace Variables

variable {id : Nat}

def HasType (v : Variables) (id : Nat) : Prop := ∃ x t, v.get? id = some x ∧ x.stackType = some t

/-- Variables stay what they are, and keep the types they have. -/
def Refines (v v' : Variables) : Prop :=
  ∀ id x, v.get? id = some x → ∃ x', v'.get? id = some x' ∧ x'.kind = x.kind ∧
    x'.declared = x.declared ∧ ∀ t, x.stackType = some t → x'.stackType = some t

/-- What the method declares has a type, and only that has its address taken. Under `Free`, no
type mentions `void`. -/
structure WellTyped (Free : Prop) (v : Variables) : Prop where
  plain : ∀ id x, v.get? id = some x → x.kind ≠ .synthetic → v.HasType id
  addressed : ∀ id x, v.get? id = some x → x.escapes = .yes → ∃ ty, x.declared = some ty
  declared : Free → ∀ id x ty, v.get? id = some x → x.declared = some ty → ty.VoidFree
  types : Free → ∀ id x t, v.get? id = some x → x.stackType = some t → t.VoidFree

variable {Free : Prop} {v v' v'' : Variables}

theorem Refines.refl (v : Variables) : v.Refines v := fun _ x hx => ⟨x, hx, rfl, rfl, fun _ ht => ht⟩

theorem Refines.trans (h : v.Refines v') (h' : v'.Refines v'') : v.Refines v'' := by
  intro id x hx
  obtain ⟨x', hx', hk, hd, ht⟩ := h id x hx
  obtain ⟨x'', hx'', hk', hd', ht'⟩ := h' id x' hx'
  exact ⟨x'', hx'', hk'.trans hk, hd'.trans hd, fun t h => ht' t (ht t h)⟩

theorem HasType.mono (h : v.HasType id) (hr : v.Refines v') : v'.HasType id := by
  obtain ⟨x, t, hx, ht⟩ := h
  obtain ⟨x', hx', -, -, hkeep⟩ := hr id x hx
  exact ⟨x', t, hx', hkeep t ht⟩

theorem get?_modify (v : Variables) (id i : Nat) (f : Variable → Variable) :
    (v.modify id f).get? i = if id = i then (v.get? i).map f else v.get? i := by
  simp only [get?, modify, Array.getElem?_modify]

theorem get?_addSynthetic {x : Variable} (h : v.addSynthetic.2.get? id = some x) :
    v.get? id = some x ∨ (id = v.size ∧ x.kind = .synthetic ∧ x.declared = none ∧
      x.stackType = none ∧ x.escapes = .unknown) := by
  simp only [get?, addSynthetic, Array.getElem?_push] at h
  split at h
  · rename_i hid
    cases h
    exact .inr ⟨hid, rfl, rfl, rfl, rfl⟩
  · exact .inl h

theorem Refines.addSynthetic (v : Variables) : v.Refines v.addSynthetic.2 := by
  intro id x hx
  have hlt := (Array.getElem?_eq_some_iff.mp hx).1
  refine ⟨x, ?_, rfl, rfl, fun _ ht => ht⟩
  exact (Array.getElem?_push_lt hlt).trans ((Array.getElem?_eq_getElem hlt).symm.trans hx)

theorem Refines.addSynthetics (v : Variables) (count : Nat) :
    v.Refines (v.addSynthetics count).2 := by
  induction count generalizing v with
  | zero => exact .refl v
  | succ count ih => exact (Refines.addSynthetic v).trans (ih _)

theorem WellTyped.addSynthetic (h : v.WellTyped Free) : v.addSynthetic.2.WellTyped Free := by
  have hold := Refines.addSynthetic v
  refine ⟨?_, ?_, ?_, ?_⟩
  · intro id x hx hkind
    rcases get?_addSynthetic hx with hx | ⟨-, hsyn, -⟩
    · exact (h.plain id x hx hkind).mono hold
    · exact absurd hsyn hkind
  · intro id x hx hyes
    rcases get?_addSynthetic hx with hx | ⟨-, -, -, -, hunknown⟩
    · exact h.addressed id x hx hyes
    · simp [hunknown] at hyes
  · intro hfree id x ty hx hty
    rcases get?_addSynthetic hx with hx | ⟨-, -, hnone, -⟩
    · exact h.declared hfree id x ty hx hty
    · simp [hnone] at hty
  · intro hfree id x t hx ht
    rcases get?_addSynthetic hx with hx | ⟨-, -, -, hnone, -⟩
    · exact h.types hfree id x t hx ht
    · simp [hnone] at ht

theorem WellTyped.addSynthetics (h : v.WellTyped Free) (count : Nat) :
    (v.addSynthetics count).2.WellTyped Free := by
  induction count generalizing v with
  | zero => exact h
  | succ count ih => exact ih h.addSynthetic

/-- A change of a variable that keeps its kind, its declared type and the type that it has. -/
theorem Refines.modify {f : Variable → Variable} (hf : ∀ x, v.get? id = some x → (f x).kind = x.kind
      ∧ (f x).declared = x.declared ∧ ∀ t, x.stackType = some t → (f x).stackType = some t) :
    v.Refines (v.modify id f) := by
  intro i x hx
  by_cases hi : id = i
  · subst hi
    exact ⟨f x, by rw [get?_modify, if_pos rfl, hx]; rfl, hf x hx⟩
  · exact ⟨x, by rw [get?_modify, if_neg hi, hx], rfl, rfl, fun _ ht => ht⟩

theorem WellTyped.modify (h : v.WellTyped Free) {f : Variable → Variable} (hf : ∀ x, v.get? id =
      some x → (f x).kind = x.kind ∧ (f x).declared = x.declared ∧ ∀ t, x.stackType = some t → (f
      x).stackType = some t)
    (he : ∀ x, v.get? id = some x → (f x).escapes = .yes → ∃ ty, (f x).declared = some ty)
    (ht : Free → ∀ x t, v.get? id = some x → (f x).stackType = some t → t.VoidFree) :
    (v.modify id f).WellTyped Free := by
  have hold := Refines.modify hf
  -- a variable is the changed one or as it was
  have hcases : ∀ {i x}, (v.modify id f).get? i = some x →
      (∃ y, v.get? id = some y ∧ i = id ∧ x = f y) ∨ v.get? i = some x := by
    intro i x hx
    rw [get?_modify] at hx
    split at hx
    · rename_i heq
      obtain ⟨y, hy, rfl⟩ := Option.map_eq_some_iff.mp hx
      exact .inl ⟨y, heq ▸ hy, heq.symm, rfl⟩
    · exact .inr hx
  refine ⟨?_, ?_, ?_, ?_⟩
  · intro i x hx hkind
    rcases hcases hx with ⟨y, hy, rfl, rfl⟩ | hx
    · exact (h.plain i y hy (by rwa [(hf y hy).1] at hkind)).mono hold
    · exact (h.plain i x hx hkind).mono hold
  · intro i x hx hyes
    rcases hcases hx with ⟨y, hy, rfl, rfl⟩ | hx
    · exact he y hy hyes
    · exact h.addressed i x hx hyes
  · intro hfree i x ty hx hty
    rcases hcases hx with ⟨y, hy, rfl, rfl⟩ | hx
    · exact h.declared hfree i y ty hy (by rwa [(hf y hy).2.1] at hty)
    · exact h.declared hfree i x ty hx hty
  · intro hfree i x t hx hxt
    rcases hcases hx with ⟨y, hy, rfl, rfl⟩ | hx
    · exact ht hfree y t hy hxt
    · exact h.types hfree i x t hx hxt

theorem Refines.markEscaping (v : Variables) (id : Nat) : v.Refines (v.markEscaping id) :=
  .modify fun _ _ => ⟨rfl, rfl, fun _ ht => ht⟩

theorem WellTyped.markEscaping (h : v.WellTyped Free)
    (hid : ∀ x, v.get? id = some x → ∃ ty, x.declared = some ty) :
    (v.markEscaping id).WellTyped Free :=
  h.modify (fun _ _ => ⟨rfl, rfl, fun _ ht => ht⟩) (fun x hx _ => hid x hx)
    fun hfree x t hx ht => h.types hfree id x t hx ht

/-- A variable has the type that it was given, from then on. -/
theorem setStackType_ensures {t : StackType} (hv : v.WellTyped Free) (ht : Free → t.VoidFree) :
    Ensures TypeError.Avoided (v.setStackType id t) fun v' => v.Refines v' ∧ v'.WellTyped Free ∧
      ∀ x, v.get? id = some x → ∃ x', v'.get? id = some x' ∧ x'.stackType = some t := by
  unfold setStackType
  split
  · rename_i hnone
    exact .ok ⟨.refl v, hv, fun x hx => by simp [hnone] at hx⟩
  · rename_i x hx
    split
    · rename_i hnone
      have hf : ∀ y, v.get? id = some y → y.kind = y.kind ∧ y.declared = y.declared ∧
          ∀ t', y.stackType = some t' → some t = some t' := by
        intro y hy
        obtain rfl : x = y := Option.some.inj (hx.symm.trans hy)
        exact ⟨rfl, rfl, by simp [hnone]⟩
      refine .ok ⟨.modify hf, hv.modify hf (hv.addressed id) ?_, ?_⟩
      · intro hfree y t' _ ht'
        cases ht'
        exact ht hfree
      · intro y hy
        exact ⟨_, by rw [get?_modify, if_pos rfl, hy]; rfl, rfl⟩
    · rename_i existing hsome
      split
      · rename_i heq
        refine .ok ⟨.refl v, hv, ?_⟩
        intro y hy
        obtain rfl : x = y := Option.some.inj (hx.symm.trans hy)
        exact ⟨x, hx, by rw [hsome, heq]⟩
      · exact .error fun h => h

end Variables

/-! ## Nodes that give values -/

namespace Node

variable {k : Nat}

/-- The node leaves a value: its operation does, or it calls a method with a result. -/
def Pushes (n : Node) : Prop :=
  n.op.pushes = .one ∨
    (n.op.pushes = .callee ∧ ∃ m, n.callee? = some m ∧ m.returnType ≠ .void)

instance (n : Node) : Decidable n.Pushes :=
  decidable_of_iff (n.op.pushes = .one ∨
    (n.op.pushes = .callee ∧ n.callee?.any (·.returnType ≠ .void) = true))
    (by simp [Pushes, Option.any_eq_true])

/-- The node leaves nothing: its operation does not, or it calls a method without a result. -/
def PushesNothing (n : Node) : Prop :=
  n.op.pushes = .none ∨
    (n.op.pushes = .callee ∧ ∃ m, n.callee? = some m ∧ m.returnType = .void)

/-- The node leaves a value. Under `Free`, the type of the value does not mention `void`. -/
structure Value (Free : Prop) (n : Node) : Prop where
  pushes : n.Pushes
  type : Free → n.type.VoidFree

/-- Values that a call takes. A constructor call has no receiver on the stack. -/
def callCount (op : Op) (m : Method) : Nat :=
  if op = .newobj ∧ m.hasThis then m.argumentCount - 1 else m.argumentCount

/-- What the node refers to does not mention `void`. -/
structure RefersFree (n : Node) : Prop where
  field : ∀ f, n.operand = .field f → f.ty.VoidFree
  type : ∀ t, n.operand = .type t → t.VoidFree
  method : ∀ m, n.callee? = some m → m.VoidFree

variable {Free : Prop} {v : Variables} {blocks : Nat} {n : Node}

@[simp] theorem callee?_withType (t : StackType) (n : Node) : (n.withType t).callee? = n.callee? := by
  cases n <;> rfl

theorem pushes_withType (t : StackType) (n : Node) : (n.withType t).Pushes ↔ n.Pushes := by
  simp [Pushes]

theorem pushesNothing_withType (t : StackType) (n : Node) :
    (n.withType t).PushesNothing ↔ n.PushesNothing := by
  simp [PushesNothing]

theorem not_pushes (h : n.op.pushes = .none) : ¬ n.Pushes := by
  rintro (hone | ⟨hcallee, -⟩)
  · rw [h] at hone
    cases hone
  · rw [h] at hcallee
    cases hcallee

/-- The types of the children that an operation takes are there. -/
theorem Shaped.leftType (h : n.Shaped blocks) (hk : n.op.pops = .fixed (k + 1)) :
    ∃ c ∈ n.children, n.leftType = .ok c.type := by
  obtain ⟨c, hc⟩ : ∃ c, n.children[0]? = some c :=
    ⟨_, List.getElem?_eq_getElem (by rw [h.count _ hk]; omega)⟩
  exact ⟨c, List.mem_of_getElem? hc, by simp [Node.leftType, h.left, hc]⟩

theorem Shaped.rightType (h : n.Shaped blocks) (hk : n.op.pops = .fixed (k + 2)) :
    ∃ c ∈ n.children, n.rightType = .ok c.type := by
  obtain ⟨c, hc⟩ : ∃ c, n.children[1]? = some c :=
    ⟨_, List.getElem?_eq_getElem (by rw [h.count _ hk]; omega)⟩
  exact ⟨c, List.mem_of_getElem? hc, by simp [Node.rightType, h.right, hc]⟩

end Node

/-! ## The rules -/

section Rules

open Node

variable {Free : Prop} {v : Variables} {blocks : Nat} {n : Node}
variable {α : Type} {k : Nat} {t : StackType}

structure Node.Ready (Free : Prop) (v : Variables) (blocks : Nat) (n : Node) : Prop where
  shaped : n.Shaped blocks
  children : ∀ c ∈ n.children, c.Value Free
  refers : Free → n.RefersFree
  /-- A variable that is read has a type. -/
  reads : n.op = .ldloc ∨ n.op = .ldarg → ∀ id x, n.varId? = some id → v.get? id = some x →
    v.HasType id

theorem untypable_ensures {Q : α → Prop} (n : Node) (detail : Untypable) :
    Ensures TypeError.Avoided (n.untypable detail) Q := .error fun h => h

theorem incompatible_ensures {Q : α → Prop} (n : Node) (l r : StackType) :
    Ensures TypeError.Avoided (n.incompatible l r) Q := .error fun h => h

theorem variableOf_ensures (v : Variables) (n : Node) :
    Ensures TypeError.Avoided (n.variableOf v)
      fun x => ∃ id, n.varId? = some id ∧ v.get? id = some x := by
  unfold Node.variableOf
  split
  · rename_i x hx
    obtain ⟨id, hid, hget⟩ := Option.bind_eq_some_iff.mp hx
    exact .ok ⟨id, hid, hget⟩
  · exact untypable_ensures n _

theorem typeOperand_ensures (h : Free → n.RefersFree) :
    Ensures TypeError.Avoided n.typeOperand fun t => Free → t.VoidFree := by
  unfold Node.typeOperand
  split
  · rename_i ty hty
    exact .ok fun hfree => (h hfree).type ty hty
  · exact untypable_ensures n _

theorem fieldOperand_ensures (h : Free → n.RefersFree) :
    Ensures TypeError.Avoided n.fieldOperand fun f => Free → f.ty.VoidFree := by
  unfold Node.fieldOperand
  split
  · rename_i f hf
    exact .ok fun hfree => (h hfree).field f hf
  · exact untypable_ensures n _

theorem leftType_ensures (h : n.Ready Free v blocks) (hk : n.op.pops = .fixed (k + 1)) :
    Ensures TypeError.Avoided n.leftType fun t => Free → t.VoidFree := by
  obtain ⟨c, hc, ht⟩ := h.shaped.leftType hk
  rw [ht]
  exact .ok (h.children c hc).type

theorem rightType_ensures (h : n.Ready Free v blocks) (hk : n.op.pops = .fixed (k + 2)) :
    Ensures TypeError.Avoided n.rightType fun t => Free → t.VoidFree := by
  obtain ⟨c, hc, ht⟩ := h.shaped.rightType hk
  rw [ht]
  exact .ok (h.children c hc).type

theorem callType_ensures (h : Free → n.RefersFree)
    (hop : n.op = .call ∨ n.op = .callvirt ∨ n.op = .newobj) :
    Ensures TypeError.Avoided (callType n) fun t => Free → n.Pushes → t.VoidFree := by
  unfold callType
  split
  · exact untypable_ensures n _
  · rename_i m hm
    split
    · split
      · exact .ok fun _ _ => trivial
      · rename_i ty _ hdeclaring
        exact .ok fun hfree _ => ((h hfree).method m hm).declaring ty hdeclaring
      · exact untypable_ensures n _
    · rename_i hnew
      refine .ok fun hfree hpushes => StackType.voidFree_ofTy ?_
      refine ((h hfree).method m hm).returnType.resolve_left ?_
      rcases hpushes with hone | ⟨-, m', hm', hne⟩
      · rcases hop with hop | hop | hop
        · simp [hop, Op.pushes] at hone
        · simp [hop, Op.pushes] at hone
        · exact absurd hop hnew
      · rw [hm] at hm'
        cases hm'
        exact hne

theorem arithType?_voidFree {a : Arith} {l r : StackType} (hl : l.VoidFree) (hr : r.VoidFree)
    (h : arithType? a l r = some t) : t.VoidFree := by
  unfold arithType? at h
  split at h
  · cases h
    exact hl
  · split at h
    · cases h
      trivial
    · split at h
      · split at h
        · cases h
          exact hl
        · cases h
      · split at h
        · cases h
          exact hl
        · cases h
      · split at h
        · cases h
          exact hr
        · cases h
      · cases h

theorem loadType_voidFree (a : LoadAccess) {pointer : StackType} (h : pointer.VoidFree) :
    (loadType a pointer).VoidFree := by
  unfold loadType
  split <;> try trivial
  split
  · split
    · simp [StackType.VoidFree, Ty.VoidFree]
    · exact StackType.voidFree_ofTy h
  · simp [StackType.VoidFree, Ty.VoidFree]

theorem declared_ensures (hv : v.WellTyped Free) :
    Ensures TypeError.Avoided (do
      let x ← n.variableOf v
      match x.declared with
      | some ty => return .managedPointer ty
      | none => n.untypable .syntheticAddress)
      fun t : StackType => Free → t.VoidFree := by
  refine (variableOf_ensures v n).bind ?_
  rintro x - ⟨id, -, hx⟩
  cases hd : x.declared with
  | none => exact untypable_ensures n _
  | some ty => exact .ok fun hfree => hv.declared hfree id x ty hx hd

theorem read_ensures (op : Op) (hv : v.WellTyped Free)
    (hreads : ∀ id x, n.varId? = some id → v.get? id = some x → v.HasType id) :
    Ensures TypeError.Avoided (do
      let x ← n.variableOf v
      match x.stackType with
      | some t => return t
      | none => throw (.untypedVariable n.offset op x.index))
      fun t : StackType => Free → t.VoidFree := by
  refine (variableOf_ensures v n).bind ?_
  rintro x - ⟨id, hid, hx⟩
  obtain ⟨y, t, hy, ht⟩ := hreads id x hid hx
  obtain rfl : x = y := Option.some.inj (hx.symm.trans hy)
  rw [ht]
  exact .ok fun hfree => hv.types hfree id x t hx ht

/-- The rules fail neither on an operand nor on a variable, and give a value a type that does not
mention `void`. -/
theorem typeOf_ensures (hv : v.WellTyped Free) (h : n.Ready Free v blocks) :
    Ensures TypeError.Avoided (typeOf v n) fun t => Free → n.Pushes → t.VoidFree := by
  have hnone : ∀ {t : StackType}, n.op.pushes = .none →
      Ensures TypeError.Avoided (.ok t) fun t => Free → n.Pushes → t.VoidFree :=
    fun hp => .ok fun _ hpushes => absurd hpushes (not_pushes hp)
  have hsome : ∀ {x : Except TypeError StackType},
      Ensures TypeError.Avoided x (fun t => Free → t.VoidFree) →
      Ensures TypeError.Avoided x fun t => Free → n.Pushes → t.VoidFree :=
    fun hx => hx.imp fun _ _ ht hfree _ => ht hfree
  unfold typeOf
  cases hop : n.op with
  | leave => exact untypable_ensures n _
  | br | brfalse | brtrue | branchCompare | switch | throw | breakpoint | ret | nop | pop | stind
  | stobj | stfld | stsfld | initobj => exact hnone (by rw [hop]; rfl)
  | call | callvirt | newobj => exact callType_ensures h.refers (by simp [hop])
  | stloc | starg =>
    refine (variableOf_ensures v n).bind fun _ _ _ => ?_
    refine (leftType_ensures h (k := 0) (by rw [hop]; rfl)).bind fun _ _ _ => ?_
    exact hnone (by rw [hop]; rfl)
  | ldloc | ldarg => exact hsome (read_ensures _ hv (h.reads (by simp [hop])))
  | ldloca | ldarga => exact hsome (declared_ensures hv)
  | ldnull | ldstr => exact .ok fun _ _ => by simp [StackType.VoidFree, Ty.VoidFree]
  | ldc c => cases c <;> exact .ok fun _ _ => trivial
  | sizeof | ldlen => exact .ok fun _ _ => trivial
  | ldind a =>
    cases a with
    | ref =>
      refine (leftType_ensures h (k := 0) (by rw [hop]; rfl)).bind fun t _ ht => ?_
      exact .ok fun hfree _ => loadType_voidFree .ref (ht hfree)
    | _ => exact .ok fun _ _ => trivial
  | arith a =>
    refine (leftType_ensures h (k := 1) (by rw [hop]; rfl)).bind fun l _ hl => ?_
    refine (rightType_ensures h (k := 0) (by rw [hop]; rfl)).bind fun r _ hr => ?_
    cases ht : arithType? a l r with
    | some t => exact .ok fun hfree _ => arithType?_voidFree (hl hfree) (hr hfree) ht
    | none => exact incompatible_ensures n l r
  | shift s =>
    refine (leftType_ensures h (k := 1) (by rw [hop]; rfl)).bind fun l _ hl => ?_
    refine (rightType_ensures h (k := 0) (by rw [hop]; rfl)).bind fun r _ hr => ?_
    unfold shiftType?
    split
    · rename_i t ht
      split at ht
      · cases ht
        exact .ok fun hfree _ => hl hfree
      · cases ht
    · exact incompatible_ensures n l r
  | neg | not =>
    refine (leftType_ensures h (k := 0) (by rw [hop]; rfl)).bind fun t _ ht => ?_
    split
    · exact .ok fun hfree _ => ht hfree
    · exact untypable_ensures n _
  | conv c =>
    refine (leftType_ensures h (k := 0) (by rw [hop]; rfl)).bind fun t _ _ => ?_
    split
    · exact .ok fun _ _ => by cases c <;> trivial
    · exact untypable_ensures n _
  | compare c =>
    refine (leftType_ensures h (k := 1) (by rw [hop]; rfl)).bind fun l _ _ => ?_
    refine (rightType_ensures h (k := 0) (by rw [hop]; rfl)).bind fun r _ _ => ?_
    split
    · exact .ok fun _ _ => trivial
    · exact incompatible_ensures n l r
  | ldobj =>
    refine (typeOperand_ensures h.refers).bind fun t _ ht => ?_
    exact .ok fun hfree _ => StackType.voidFree_ofTy (ht hfree)
  | newarr | ldelema =>
    refine (typeOperand_ensures h.refers).bind fun t _ ht => ?_
    exact .ok fun hfree _ => ht hfree
  | ldfld | ldsfld =>
    refine (fieldOperand_ensures h.refers).bind fun f _ hf => ?_
    exact .ok fun hfree _ => StackType.voidFree_ofTy (hf hfree)
  | ldflda | ldsflda =>
    refine (fieldOperand_ensures h.refers).bind fun f _ hf => ?_
    exact .ok fun hfree _ => hf hfree
  | dup | ldelem | ldelemAny | stelem | stelemAny | box | unboxAny | castclass | isinst | ldtoken
  | convOvf | convOvfUn => exact untypable_ensures n _

/-- Only what the method declares has an address. -/
theorem typeOf_address_ensures (h : n.TakesAddress) :
    Ensures TypeError.Avoided (typeOf v n) fun _ =>
      ∃ id x ty, n.varId? = some id ∧ v.get? id = some x ∧ x.declared = some ty := by
  have haddress : Ensures TypeError.Avoided (do
      let x ← n.variableOf v
      match x.declared with
      | some ty => return StackType.managedPointer ty
      | none => n.untypable .syntheticAddress) fun _ =>
      ∃ id x ty, n.varId? = some id ∧ v.get? id = some x ∧ x.declared = some ty := by
    refine (variableOf_ensures v n).bind ?_
    rintro x - ⟨id, hid, hx⟩
    cases hd : x.declared with
    | none => exact untypable_ensures n _
    | some ty => exact .ok ⟨id, x, ty, hid, hx, hd⟩
  unfold typeOf
  rcases h with hop | hop
  · simp only [hop]
    exact haddress
  · simp only [hop]
    exact haddress

/-- A load has the type of its variable. -/
theorem typeOf_ldloc (hop : n.op = .ldloc) (h : typeOf v n = .ok t) :
    ∃ id x, n.varId? = some id ∧ v.get? id = some x ∧ x.stackType = some t := by
  simp only [typeOf, hop] at h
  obtain ⟨x, hx, h⟩ := bind_eq_ok.mp h
  obtain ⟨id, hid, hget⟩ := (variableOf_ensures v n).result x hx
  refine ⟨id, x, hid, hget, ?_⟩
  cases ht : x.stackType with
  | some t' =>
    rw [ht] at h
    cases h
    rfl
  | none =>
    rw [ht] at h
    cases h

/-- A call has the type that its method returns. -/
theorem typeOf_callee (hp : n.op.pushes = .callee) (h : typeOf v n = .ok t) :
    ∃ m, n.callee? = some m ∧ t = StackType.ofTy m.returnType := by
  have hop : n.op = .call ∨ n.op = .callvirt := by
    cases hop : n.op <;> simp_all [Op.pushes]
  have hcall : callType n = .ok t := by
    rcases hop with hop | hop <;> simpa only [typeOf, hop] using h
  have hnew : n.op ≠ .newobj := by rcases hop with hop | hop <;> simp [hop]
  unfold callType at hcall
  cases hm : n.callee? with
  | none =>
    rw [hm] at hcall
    cases hcall
  | some m =>
    rw [hm] at hcall
    simp only [if_neg hnew] at hcall
    cases hcall
    exact ⟨m, rfl, rfl⟩

/-- A node with a type leaves a value where the builder keeps it as one, and nothing elsewhere. -/
theorem pushes_of_producesValue (h : typeOf v n = .ok t)
    (hvalue : Builder.producesValue n.op (n.withType t) = true) : n.Pushes := by
  unfold Builder.producesValue at hvalue
  split at hvalue
  · cases hvalue
  · exact .inl ‹_›
  · rename_i htwo
    have hdup : n.op = .dup := by cases hop : n.op <;> simp_all [Op.pushes]
    simp only [typeOf, hdup] at h
    cases h
  · rename_i hcallee
    obtain ⟨m, hm, rfl⟩ := typeOf_callee hcallee h
    rw [type_withType, Builder.isValue_ofTy] at hvalue
    exact .inr ⟨hcallee, m, hm, by simpa using hvalue⟩

theorem pushesNothing_of_producesValue (h : typeOf v n = .ok t)
    (hvalue : Builder.producesValue n.op (n.withType t) = false) : n.PushesNothing := by
  unfold Builder.producesValue at hvalue
  split at hvalue
  · exact .inl ‹_›
  · cases hvalue
  · cases hvalue
  · rename_i hcallee
    obtain ⟨m, hm, rfl⟩ := typeOf_callee hcallee h
    rw [type_withType, Builder.isValue_ofTy] at hvalue
    exact .inr ⟨hcallee, m, hm, by simpa using hvalue⟩

/-- A store gives a variable that the builder added the type of the value. -/
theorem afterStore_ensures (hv : v.WellTyped Free)
    (hchild : ∀ c, n.left? = some c → Free → c.type.VoidFree) :
    Ensures TypeError.Avoided (afterStore v n) fun v' => v.Refines v' ∧ v'.WellTyped Free ∧
      ∀ id x c, n.op = .stloc → n.varId? = some id → n.left? = some c → v.get? id = some x →
        x.kind = .synthetic → ∃ x', v'.get? id = some x' ∧ x'.stackType = some c.type := by
  have hset : ∀ {id : Nat} {value : Node}, n.varId? = some id → n.left? = some value →
      Ensures TypeError.Avoided (if (v.get? id).any (·.kind = .synthetic)
          then v.setStackType id value.type else .ok v)
        fun v' => v.Refines v' ∧ v'.WellTyped Free ∧
          ∀ id x c, n.op = .stloc → n.varId? = some id → n.left? = some c → v.get? id = some x →
            x.kind = .synthetic → ∃ x', v'.get? id = some x' ∧ x'.stackType = some c.type := by
    intro id value hid hvalue
    split
    · refine (Variables.setStackType_ensures hv (hchild value hvalue)).imp ?_
      rintro v' - ⟨hrefines, htyped, hget⟩
      refine ⟨hrefines, htyped, ?_⟩
      intro id' x c _ hid' hc hx _
      rw [hid] at hid'
      cases hid'
      rw [hvalue] at hc
      cases hc
      exact hget x hx
    · rename_i hno
      refine .ok ⟨.refl v, hv, ?_⟩
      intro id' x c _ hid' _ hx hkind
      rw [hid] at hid'
      cases hid'
      simp [hx, hkind] at hno
  unfold afterStore
  split
  · exact hset ‹_› ‹_›
  · exact hset ‹_› ‹_›
  · rename_i hno _
    refine .ok ⟨.refl v, hv, ?_⟩
    intro id x c hop hid hc
    exact absurd hc (hno id c hop hid)

end Rules

end Trees

end SpuCompiler
