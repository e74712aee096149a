import SpuCompiler.Proofs.Trees.Duplication
import SpuCompiler.Proofs.Trees.TypingRules

/-!
Typed trees. Every node below the root of a tree gives a value, roots give none, and an added
variable has one type, that of all values stored into it and of all its loads. The builder keeps
this, and so it never reads a variable without a type or types a node without its operands.
-/

namespace SpuCompiler

open Metadata Bytecode

/-! ## Records -/

/-- What the operand names does not mention `void`, results of methods apart. -/
def Operand.VoidFree {ρ : Type} : Operand ρ → Prop
  | .field f => f.ty.VoidFree
  | .method m => m.VoidFree
  | .type t => t.VoidFree
  | _ => True

/-- Entities that records name come from the resolver. -/
theorem Bytecode.Scope.Accepts.voidFree {s : Scope} {r : Record} (h : s.Accepts r)
    (hs : s.resolver.VoidFree) : r.operand.VoidFree := by
  obtain ⟨o, -, -, value, hv⟩ := h.row
  have hvariable : ∀ {index : Nat}, s.variableAt o.name r.op index = .ok r.operand →
      r.operand.VoidFree := by
    intro index hv
    rcases variableAt_ok hv with ⟨hx, -⟩ | ⟨hx, -⟩ <;> rw [hx] <;> trivial
  have htarget : ∀ {d : Int}, s.target o.name r.stop d = .ok r.operand → r.operand.VoidFree := by
    intro d hv
    obtain ⟨t, -, hx⟩ := target_ok hv
    rw [hx]
    trivial
  have hresolve : ∀ {α : Type} {wrap : α → Operand Place} {found : Option α},
      (∀ a, found = some a → (wrap a).VoidFree) →
      resolve o.name value wrap found = .ok r.operand → r.operand.VoidFree := by
    intro α wrap found hfound hv
    cases found with
    | none => cases hv
    | some a =>
      have hx : wrap a = r.operand := Except.ok.inj hv
      rw [← hx]
      exact hfound a rfl
  unfold operand at hv
  cases hk : o.operand with
  | none =>
    simp only [hk] at hv
    cases hi : o.implied with
    | none | int v =>
      simp only [hi, Except.ok.injEq] at hv
      rw [← hv]
      trivial
    | index n =>
      simp only [hi] at hv
      exact hvariable hv
  | shortVar | var =>
    simp only [hk] at hv
    exact hvariable hv
  | shortI | i | i8 | r4 | r =>
    simp only [hk, Except.ok.injEq] at hv
    rw [← hv]
    trivial
  | shortTarget | target =>
    simp only [hk] at hv
    exact htarget hv
  | field =>
    simp only [hk] at hv
    exact hresolve (hs.field value) hv
  | method =>
    simp only [hk] at hv
    exact hresolve (hs.method value) hv
  | type =>
    simp only [hk] at hv
    exact hresolve (hs.type value) hv
  | string =>
    simp only [hk] at hv
    obtain ⟨name, hx⟩ := resolve_ok hv
    rw [hx]
    trivial
  | switch => simp [hk] at hv

namespace Trees

open StackMachine

/-! ## Trees -/

namespace Node

/-- What the types of a node and of its children say, in a routine with the given variables. -/
structure Typed (Free : Prop) (v : Variables) (n : Node) : Prop where
  callee : n.op.pops = .callee →
    ∃ m, n.callee? = some m ∧ n.children.length = callCount n.op m
  children : ∀ c ∈ n.children, c.Value Free
  load : n.op = .ldloc →
    ∃ id x, n.varId? = some id ∧ v.get? id = some x ∧ x.stackType = some n.type
  store : n.op = .stloc → ∃ id x, n.varId? = some id ∧ v.get? id = some x ∧
    (x.kind = .synthetic → ∀ c ∈ n.children, x.stackType = some c.type)

def AllTyped (Free : Prop) (v : Variables) (n : Node) : Prop := ∀ k ∈ n.postorder, k.Typed Free v

structure TypedValue (Free : Prop) (v : Variables) (n : Node) : Prop where
  tree : n.AllTyped Free v
  value : n.Value Free

structure TypedRoot (Free : Prop) (v : Variables) (n : Node) : Prop where
  tree : n.AllTyped Free v
  effect : n.PushesNothing

variable {Free : Prop} {v v' : Variables} {n : Node}

theorem allTyped_iff : n.AllTyped Free v ↔
    (∀ c ∈ n.children, c.AllTyped Free v) ∧ n.Typed Free v := forall_postorder

theorem Typed.mono (h : n.Typed Free v) (hv : v.Refines v') : n.Typed Free v' := by
  refine ⟨h.callee, h.children, ?_, ?_⟩
  · intro hop
    obtain ⟨id, x, hid, hx, ht⟩ := h.load hop
    obtain ⟨x', hx', -, -, hkeep⟩ := hv id x hx
    exact ⟨id, x', hid, hx', hkeep _ ht⟩
  · intro hop
    obtain ⟨id, x, hid, hx, ht⟩ := h.store hop
    obtain ⟨x', hx', hkind, -, hkeep⟩ := hv id x hx
    exact ⟨id, x', hid, hx', fun hs c hc => hkeep _ (ht (hkind ▸ hs) c hc)⟩

theorem AllTyped.mono (h : n.AllTyped Free v) (hv : v.Refines v') : n.AllTyped Free v' :=
  fun k hk => (h k hk).mono hv

theorem TypedValue.mono (h : n.TypedValue Free v) (hv : v.Refines v') : n.TypedValue Free v' :=
  ⟨h.tree.mono hv, h.value⟩

theorem TypedRoot.mono (h : n.TypedRoot Free v) (hv : v.Refines v') : n.TypedRoot Free v' :=
  ⟨h.tree.mono hv, h.effect⟩

end Node

/-- Errors of typing that the builder never meets. -/
def BuildError.Avoided : BuildError → Prop
  | .type e => e.Avoided
  | _ => False

theorem stackError_ensures {α : Type} {Q : α → Prop} (r : Record) (fault : StackFault) :
    Ensures BuildError.Avoided (stackError r fault) Q := .error fun h => h

namespace Builder

variable {Free : Prop} {b b' b'' : Builder} {r : Record}
variable {vars : Variables} {n array address : Node} {id blocks locals offset arguments : Nat}
  {o : Operand Ref} {access : ElementAccess} {op : Op} {element : Ty} {value : Option Node}

/-- The trees on the stack and in the blocks are typed, and what is carried has a type. -/
structure Typed (Free : Prop) (b : Builder) : Prop where
  vars : b.vars.WellTyped Free
  trees : ∀ n ∈ b.trees, n.TypedValue Free b.vars
  roots : ∀ k ∈ b.blocks, ∀ n ∈ k.roots, n.TypedRoot Free b.vars
  carried : ∀ id ∈ b.carried, b.vars.HasType id

structure Filled (b : Builder) : Prop where
  entries : ∀ p ∈ b.entries, ∀ id ∈ p.2, b.vars.HasType id
  temporaries : ∀ id ∈ b.temporaries, b.vars.HasType id

/-- The builder is still typed, and variables have kept their types. -/
structure Onward (Free : Prop) (b b' : Builder) : Prop where
  typed : b'.Typed Free
  refines : b.vars.Refines b'.vars

theorem Filled.mono (h : b.Filled) (hentries : b'.entries = b.entries)
    (htemporaries : b'.temporaries = b.temporaries) (hrefines : b.vars.Refines b'.vars) :
    b'.Filled := by
  refine ⟨?_, ?_⟩
  · rw [hentries]
    exact fun p hp id hid => (h.entries p hp id hid).mono hrefines
  · rw [htemporaries]
    exact fun id hid => (h.temporaries id hid).mono hrefines

theorem Onward.trans (h : b.Onward Free b') (h' : b'.Onward Free b'') : b.Onward Free b'' :=
  ⟨h'.typed, h.refines.trans h'.refines⟩

theorem Typed.onward (h : b.Typed Free) : b.Onward Free b := ⟨h, .refl _⟩

/-- Blocks that are left alone keep their trees. -/
theorem Typed.restack (h : b.Typed Free) (hblocks : b'.blocks = b.blocks)
    (hrefines : b.vars.Refines b'.vars) (hvars : b'.vars.WellTyped Free)
    (htrees : ∀ n ∈ b'.trees, n.TypedValue Free b'.vars)
    (hcarried : ∀ id ∈ b'.carried, b'.vars.HasType id) : b.Onward Free b' := by
  refine ⟨⟨hvars, htrees, ?_, hcarried⟩, hrefines⟩
  rw [hblocks]
  intro k hk n hn
  exact (h.roots k hk n hn).mono hrefines

theorem Typed.withVars (h : b.Typed Free) (hrefines : b.vars.Refines vars)
    (hvars : vars.WellTyped Free) : b.Onward Free { b with vars := vars } :=
  h.restack rfl hrefines hvars (fun n hn => (h.trees n hn).mono hrefines)
    fun id hid => (h.carried id hid).mono hrefines

theorem Typed.addRoots {ns : List Node} (h : b.Typed Free)
    (hns : ∀ n ∈ ns, n.TypedRoot Free b.vars) :
    b.Onward Free (b.addRoots ns) := by
  have hroots := forall_roots_addRoots h.roots hns
  rw [addRoots_eq] at hroots ⊢
  exact ⟨⟨h.vars, h.trees, hroots, h.carried⟩, .refl _⟩

/-! ## Typing a node -/

/-- What typing a node gives: a typed tree, and a type for the variable that it stores to. -/
structure Derives (Free : Prop) (b : Builder) (n n' : Node) (b' : Builder) : Prop where
  eq : b' = { b with vars := b'.vars }
  refines : b.vars.Refines b'.vars
  vars : b'.vars.WellTyped Free
  tree : n'.AllTyped Free b'.vars
  value : producesValue n'.op n' = true → n'.Value Free
  effect : producesValue n'.op n' = false → n'.PushesNothing
  stores : n.op = .stloc → ∀ id, n.varId? = some id → b'.vars.HasType id

theorem Derives.onward {n' : Node} (h : Derives Free b n n' b') (hb : b.Typed Free) :
    b.Onward Free b' := by
  rw [h.eq]
  exact hb.withVars h.refines h.vars

/-- A store has one child. -/
theorem exists_child_of_stloc (hn : n.Shaped blocks) (hop : n.op = .stloc) :
    ∃ c, n.left? = some c ∧ n.children = [c] := by
  have hlen := hn.count 1 (by rw [hop]; rfl)
  obtain ⟨c, hc⟩ := List.length_eq_one_iff.mp hlen
  exact ⟨c, by rw [hn.left, hc]; rfl, hc⟩

/-- A node that has a type, with the variables as its store leaves them. -/
theorem derives_of_typeOf {t : StackType} (hb : b.vars.WellTyped Free)
    (hn : n.Ready Free b.vars blocks) (htrees : ∀ c ∈ n.children, c.AllTyped Free b.vars) (hcallee :
      n.op.pops = .callee → ∃ m, n.callee? = some m ∧ n.children.length = Node.callCount n.op m)
    (ht : typeOf b.vars n = .ok t) (hrefines : b.vars.Refines vars) (htyped : vars.WellTyped Free)
    (hsets : ∀ id x c, n.op = .stloc → n.varId? = some id → n.left? = some c → b.vars.get? id = some
      x → x.kind = .synthetic → ∃ x', vars.get? id = some x' ∧ x'.stackType = some c.type) :
    Derives Free b n (n.withType t) { b with vars := vars } := by
  have hvariable : n.op = .stloc → ∃ id x, n.varId? = some id ∧ b.vars.get? id = some x :=
    fun hop => Node.exists_variable ht (by rw [hop]; rfl)
  refine ⟨rfl, hrefines, htyped, Node.allTyped_iff.mpr ⟨?_, ?_⟩, ?_, ?_, ?_⟩
  · rw [Node.children_withType]
    exact fun c hc => (htrees c hc).mono hrefines
  · refine ⟨by simpa using hcallee, by simpa using hn.children, ?_, ?_⟩
    · intro hop
      rw [Node.op_withType] at hop
      obtain ⟨id, x, hid, hx, hxt⟩ := typeOf_ldloc hop ht
      obtain ⟨x', hx', -, -, hkeep⟩ := hrefines id x hx
      exact ⟨id, x', by rw [Node.varId?_withType, hid], hx', by simpa using hkeep t hxt⟩
    · intro hop
      rw [Node.op_withType] at hop
      obtain ⟨id, x, hid, hx⟩ := hvariable hop
      obtain ⟨c, hc, hchildren⟩ := exists_child_of_stloc hn.shaped hop
      obtain ⟨x', hx', hkind, -, -⟩ := hrefines id x hx
      refine ⟨id, x', by rw [Node.varId?_withType, hid], hx', ?_⟩
      intro hs c' hc'
      rw [Node.children_withType, hchildren, List.mem_singleton] at hc'
      obtain ⟨x'', hx'', ht''⟩ := hsets id x c hop hid hc hx (hkind ▸ hs)
      rw [hx'] at hx''
      cases hx''
      rw [hc', ht'']
  · intro hvalue
    rw [Node.op_withType] at hvalue
    have hpushes := pushes_of_producesValue ht hvalue
    refine ⟨(Node.pushes_withType t n).mpr hpushes, fun hfree => ?_⟩
    rw [Node.type_withType]
    exact (typeOf_ensures hb hn).result t ht hfree hpushes
  · intro hvalue
    rw [Node.op_withType] at hvalue
    exact (Node.pushesNothing_withType t n).mpr (pushesNothing_of_producesValue ht hvalue)
  · intro hop id hid
    obtain ⟨id', x, hid', hx⟩ := hvariable hop
    rw [hid] at hid'
    cases hid'
    obtain ⟨c, hc, -⟩ := exists_child_of_stloc hn.shaped hop
    by_cases hkind : x.kind = .synthetic
    · obtain ⟨x', hx', ht'⟩ := hsets id x c hop hid hc hx hkind
      exact ⟨x', _, hx', ht'⟩
    · exact (hb.plain id x hx hkind).mono hrefines

theorem deriveType_ensures (hb : b.vars.WellTyped Free) (hn : n.Ready Free b.vars blocks)
    (htrees : ∀ c ∈ n.children, c.AllTyped Free b.vars) (hcallee : n.op.pops = .callee → ∃ m,
      n.callee? = some m ∧ n.children.length = Node.callCount n.op m) :
    Ensures BuildError.Avoided (b.deriveType n) fun x => Derives Free b n x.1 x.2 := by
  have hleft : ∀ c, n.left? = some c → c ∈ n.children := by
    intro c hc
    rw [hn.shaped.left] at hc
    exact List.mem_of_getElem? hc
  have hstore := afterStore_ensures hb fun c hc hfree => (hn.children c (hleft c hc)).type hfree
  unfold deriveType
  cases hd : derive b.vars n with
  | error e =>
    rcases bind_eq_error.mp hd with ht | ⟨t, -, hd⟩
    · exact .error ((typeOf_ensures hb hn).failure e ht)
    · rcases bind_eq_error.mp hd with hs | ⟨vars, -, hd⟩
      · exact .error (hstore.failure e hs)
      · cases hd
  | ok x =>
    obtain ⟨t, ht, hd⟩ := bind_eq_ok.mp hd
    obtain ⟨vars, hs, hd⟩ := bind_eq_ok.mp hd
    cases hd
    obtain ⟨hrefines, htyped, hsets⟩ := hstore.result vars hs
    exact .ok (derives_of_typeOf hb hn htrees hcallee ht hrefines htyped hsets)

/-- A load of a variable with a type is a value. -/
theorem load_ensures (hb : b.vars.WellTyped Free) (hid : b.vars.HasType id) :
    Ensures BuildError.Avoided (b.load id offset) fun x =>
      x.2 = { b with vars := x.2.vars } ∧ b.vars.Refines x.2.vars ∧ x.2.vars.WellTyped Free ∧
        x.1.TypedValue Free x.2.vars := by
  have hready :
      (Node.leaf { op := .ldloc, operand := .ref (.variable id), offset := offset }).Ready
        Free b.vars b.blocks.size := by
    refine ⟨⟨rfl, rfl, rfl, ?_, nofun, nofun⟩, by simp [Node.children], fun _ => ⟨nofun, nofun, nofun⟩, ?_⟩
    · rintro k ⟨⟩
      rfl
    · rintro - _ x ⟨⟩ -
      exact hid
  refine (deriveType_ensures hb hready (by simp [Node.children]) nofun).imp ?_
  rintro ⟨n, b'⟩ hok hd
  obtain ⟨t, vars, rfl, -, -⟩ := load_ok hok
  exact ⟨hd.eq, hd.refines, hd.vars, hd.tree, hd.value rfl⟩

/-- A store of a value gives its variable a type. -/
theorem store_ensures {value : Node} (hb : b.vars.WellTyped Free)
    (hvalue : value.TypedValue Free b.vars) :
    Ensures BuildError.Avoided (b.store id value offset) fun x =>
      x.2 = { b with vars := x.2.vars } ∧ b.vars.Refines x.2.vars ∧ x.2.vars.WellTyped Free ∧
        x.1.TypedRoot Free x.2.vars ∧ x.2.vars.HasType id := by
  have hready :
      (Node.unary { op := .stloc, operand := .ref (.variable id), offset := offset } value).Ready
        Free b.vars b.blocks.size := by
    refine ⟨⟨rfl, rfl, rfl, ?_, nofun, nofun⟩, ?_, fun _ => ⟨nofun, nofun, nofun⟩, ?_⟩
    · rintro k ⟨⟩
      rfl
    · simpa [Node.children] using hvalue.value
    · rintro (⟨⟨⟩⟩ | ⟨⟨⟩⟩)
  refine (deriveType_ensures hb hready (by simpa [Node.children] using hvalue.tree) nofun).imp ?_
  rintro ⟨n, b'⟩ hok hd
  obtain ⟨rfl, -⟩ := store_ok hok
  exact ⟨hd.eq, hd.refines, hd.vars, ⟨hd.tree, hd.effect rfl⟩, hd.stores rfl id rfl⟩

/-! ## Nodes of records -/

theorem pop_ensures (hb : b.Typed Free) (r : Record) :
    Ensures BuildError.Avoided (b.pop r) fun x =>
      b.Onward Free x.2 ∧ x.1.TypedValue Free x.2.vars := by
  unfold pop
  split
  · rename_i n trees htrees
    have hall : ∀ k ∈ n :: trees, k.TypedValue Free b.vars := htrees ▸ hb.trees
    exact .ok ⟨hb.restack rfl (.refl _) hb.vars (fun k hk => hall k (by simp [hk])) hb.carried,
      hall n (by simp)⟩
  · split
    · rename_i id carried hcarried
      have hall : ∀ k ∈ id :: carried, b.vars.HasType k := hcarried ▸ hb.carried
      refine (load_ensures (b := { b with carried := carried }) hb.vars (hall id (by simp))).imp ?_
      rintro ⟨n, b'⟩ - ⟨heq, hrefines, hvars, hn⟩
      dsimp only at heq hrefines hvars hn ⊢
      rw [heq]
      refine ⟨hb.restack rfl hrefines hvars (fun k hk => (hb.trees k hk).mono hrefines) ?_, hn⟩
      exact fun k hk => (hall k (by simp [hk])).mono hrefines
    · exact stackError_ensures r _

theorem popMany_ensures {values : List Node} {count : Nat} (hb : b.Typed Free) (r : Record)
    (hvalues : ∀ n ∈ values, n.TypedValue Free b.vars) :
    Ensures BuildError.Avoided (b.popMany r values count) fun x =>
      b.Onward Free x.2 ∧ ∀ n ∈ x.1, n.TypedValue Free x.2.vars := by
  induction count generalizing b values with
  | zero => exact .ok ⟨hb.onward, hvalues⟩
  | succ count ih =>
    refine (pop_ensures hb r).bind ?_
    rintro ⟨n, b1⟩ - ⟨h1, hn⟩
    have hmore : ∀ k ∈ n :: values, k.TypedValue Free b1.vars := by
      intro k hk
      rcases List.mem_cons.mp hk with rfl | hk
      · exact hn
      · exact (hvalues k hk).mono h1.refines
    refine (ih h1.typed hmore).imp ?_
    rintro ⟨out, b2⟩ - ⟨h2, hout⟩
    exact ⟨h1.trans h2, hout⟩

/-- Errors of operands are errors of the stack discipline. -/
theorem operand_ensures (b : Builder) (r : Record) :
    Ensures BuildError.Avoided (b.operand r) fun _ => True := by
  refine ⟨fun _ _ => trivial, ?_⟩
  intro e he
  cases hr : r.operand with
  | ref p =>
    cases p with
    | target t =>
      cases hk : b.blockAt? t with
      | some k => simp [operand, hr, hk] at he
      | none =>
        simp only [operand, hr, hk] at he
        exact (stackError_ensures (Q := fun _ => True) r _).failure e he
    | temporary i => cases ht : b.temporaries[i]? <;> simp [operand, hr, ht] at he
    | localVar i | argument i => simp [operand, hr] at he
  | _ => simp [operand, hr] at he

structure Parts (Free : Prop) (b : Builder) (o : Operand Ref) (n : Node) : Prop where
  operand : n.operand = o
  children : ∀ c ∈ n.children, c.TypedValue Free b.vars
  callee : n.op.pops = .callee →
    ∃ m, n.callee? = some m ∧ n.children.length = Node.callCount n.op m
  method : ∀ m, n.callee? = some m → o = .method m

theorem callNode_ensures (hb : b.Typed Free) :
    Ensures BuildError.Avoided (b.callNode r o) fun x =>
      b.Onward Free x.2 ∧ x.2.Parts Free o x.1 := by
  unfold callNode
  split
  · rename_i m
    refine (popMany_ensures hb r (by simp)).bind ?_
    rintro ⟨args, b1⟩ hp ⟨h1, hargs⟩
    refine .ok ⟨h1, ⟨rfl, hargs, fun _ => ⟨m, rfl, length_popMany hp⟩, ?_⟩⟩
    rintro _ ⟨⟩
    rfl
  · exact .error fun h => h

theorem callee?_plain (head : Head) (left right : Option Node) :
    (Node.plain head left right).callee? = none := by
  cases left <;> cases right <;> rfl

theorem plainNode_ensures (he : r.op.elementAccess? = none) (hb : b.Typed Free) :
    Ensures BuildError.Avoided (b.plainNode r o) fun x =>
      b.Onward Free x.2 ∧ x.2.Parts Free o x.1 := by
  unfold plainNode
  dsimp only
  split
  · exact callNode_ensures hb
  · rename_i hpops
    have hcallee : ∀ {n : Node}, n.op = r.op → n.op.pops ≠ .callee := by
      intro n hop hcallee
      rw [hop, hpops] at hcallee
      cases hcallee
    split
    · exact .ok ⟨hb.onward, ⟨rfl, by simp [Node.children], fun h => absurd h (hcallee rfl), nofun⟩⟩
    · refine (pop_ensures hb r).bind ?_
      rintro ⟨value, b1⟩ - ⟨h1, hvalue⟩
      exact .ok ⟨h1, ⟨rfl, by simpa [Node.children] using hvalue,
        fun h => absurd h (hcallee rfl), nofun⟩⟩
  · rename_i count hpops
    refine (popMany_ensures hb r (by simp)).bind ?_
    rintro ⟨values, b1⟩ hp ⟨h1, hvalues⟩
    have hchildren := children_plain { op := r.op, operand := o, offset := r.offset }
      ((length_popMany hp).trans_le (pops_le_two he hpops))
    refine .ok ⟨h1, ⟨by simp [Node.operand, head_plain], ?_, ?_, ?_⟩⟩
    · rw [hchildren]
      exact hvalues
    · intro hcallee
      simp [Node.op, head_plain, hpops] at hcallee
    · intro m hm
      rw [callee?_plain] at hm
      cases hm

/-- What the builder makes of a record: a tree that is a value or a root. -/
structure Made (Free : Prop) (b : Builder) (r : Record) (n : Node) : Prop where
  tree : n.AllTyped Free b.vars
  value : producesValue r.op n = true → n.Value Free
  effect : producesValue r.op n = false → n.PushesNothing

/-- What an element access reads or writes does not mention `void`. -/
theorem accessedType_voidFree (hr : r.operand.VoidFree) (harray : array.type.VoidFree) :
    (accessedType r access array).VoidFree := by
  unfold accessedType
  split
  · rename_i t ht
    rw [ht] at hr
    exact hr
  · unfold elementType
    split
    case h_18 =>
      split
      · rename_i e he
        rw [he] at harray
        exact harray
      · simp [Ty.VoidFree]
    all_goals simp [Ty.VoidFree]

/-- The indirect access leaves a value where the element access does. It is neither a call nor a
load of a variable. -/
theorem indirect_plain (h : op.elementAccess? = some access) :
    access.indirect.pushes = op.pushes ∧ access.indirect.pops ≠ .callee ∧
      access.indirect ≠ .ldloc ∧ access.indirect ≠ .ldarg := by
  unfold Op.elementAccess? at h
  split at h <;> cases h <;> refine ⟨rfl, ?_, ?_, ?_⟩ <;> nofun

theorem producesValue_congr {op' : Op} (h : op.pushes = op'.pushes) (n : Node) :
    producesValue op n = producesValue op' n := by
  unfold producesValue
  rw [h]

/-- Typing a node over values, in a builder that is typed. -/
theorem deriveType_made (hb : b.Typed Free) (hs : n.Shaped blocks)
    (hchildren : ∀ c ∈ n.children, c.TypedValue Free b.vars) (hcallee : n.op.pops = .callee → ∃ m,
      n.callee? = some m ∧ n.children.length = Node.callCount n.op m) (hfree : Free → n.RefersFree)
    (hreads : n.op = .ldloc ∨ n.op = .ldarg → ∀ id, n.varId? = some id → b.vars.HasType id) :
    Ensures BuildError.Avoided (b.deriveType n) fun x =>
      b.Onward Free x.2 ∧ Derives Free b n x.1 x.2 := by
  refine (deriveType_ensures hb.vars ⟨hs, fun c hc => (hchildren c hc).value, hfree, ?_⟩
    (fun c hc => (hchildren c hc).tree) hcallee).imp fun x _ hd => ⟨hd.onward hb, hd⟩
  exact fun hop id x hid _ => hreads hop id hid

theorem elementAddress_ensures {index : Node} (hb : b.Typed Free)
    (harray : array.TypedValue Free b.vars) (hindex : index.TypedValue Free b.vars)
    (helement : Free → element.VoidFree) :
    Ensures BuildError.Avoided (b.deriveType (.binary
        { op := .ldelema, operand := .type element, offset := offset } array index)) fun x =>
      b.Onward Free x.2 ∧ x.1.TypedValue Free x.2.vars := by
  have hshape : (Node.binary { op := .ldelema, operand := .type element, offset := offset }
      array index).Shaped b.blocks.size := by
    refine ⟨rfl, rfl, rfl, ?_, nofun, nofun⟩
    rintro k ⟨⟩
    rfl
  have hparts : ∀ c ∈ [array, index], c.TypedValue Free b.vars := by
    simpa using ⟨harray, hindex⟩
  refine (deriveType_made hb hshape hparts ?_ ?_ ?_).imp ?_
  · nofun
  · intro hfree
    refine ⟨nofun, ?_, nofun⟩
    rintro t ⟨⟩
    exact helement hfree
  · rintro (⟨⟨⟩⟩ | ⟨⟨⟩⟩)
  · rintro ⟨address, b'⟩ hok ⟨honward, hd⟩
    obtain ⟨t, -, -, rfl, -, -⟩ := deriveType_ok hok
    exact ⟨honward, hd.tree, hd.value rfl⟩

theorem indirectOperand_voidFree {head : Head} (helement : element.VoidFree)
    (hhead : head.operand = indirectOperand access element) :
    (Node.plain head (some address) value).RefersFree := by
  refine ⟨?_, ?_, ?_⟩
  · intro f hf
    rw [Node.operand, head_plain, hhead] at hf
    unfold indirectOperand at hf
    split at hf <;> cases hf
  · intro t ht
    rw [Node.operand, head_plain, hhead] at ht
    unfold indirectOperand at ht
    split at ht <;> cases ht <;> exact helement
  · intro m hm
    rw [callee?_plain] at hm
    cases hm

/-- The access through the address of an element. -/
theorem indirect_ensures (hb : b.Typed Free) (haccess : r.op.elementAccess? = some access)
    (hstore : access.isStore = value.isSome) (haddress : address.TypedValue Free b.vars)
    (hvalue : ∀ v ∈ value, v.TypedValue Free b.vars) (helement : Free → element.VoidFree) :
    Ensures BuildError.Avoided (b.deriveType (.plain
        { op := access.indirect, operand := indirectOperand access element, offset := r.offset }
        (some address) value)) fun x => b.Onward Free x.2 ∧ x.2.Made Free r x.1 := by
  obtain ⟨hpushes, hcall, hldloc, hldarg⟩ := indirect_plain haccess
  have hop : (Node.plain { op := access.indirect, operand := indirectOperand access element,
                           offset := r.offset } (some address) value).op = access.indirect := by
    rw [Node.op, head_plain]
  refine (deriveType_made hb (indirect_shaped haccess hstore element address _ b.blocks.size)
    ?_ ?_ ?_ ?_).imp ?_
  · cases value with
    | none => simpa [Node.plain, Node.children] using haddress
    | some v => simpa [Node.plain, Node.children] using ⟨haddress, hvalue v rfl⟩
  · intro hcallee
    rw [hop] at hcallee
    exact absurd hcallee hcall
  · exact fun hfree => indirectOperand_voidFree (helement hfree) rfl
  · rw [hop]
    rintro (h | h)
    · exact absurd h hldloc
    · exact absurd h hldarg
  · rintro ⟨n, b'⟩ hok ⟨honward, hd⟩
    have hn : n.op = access.indirect := by
      obtain ⟨t, -, -, rfl, -, -⟩ := deriveType_ok hok
      rw [Node.op_withType, hop]
    have hproduces := producesValue_congr (hn ▸ hpushes) n
    exact ⟨honward, hd.tree, fun h => hd.value (hproduces.trans h),
      fun h => hd.effect (hproduces.trans h)⟩

/-- The node of an element access whose value, if it stores one, is already popped. -/
theorem elementOf_ensures (hb : b.Typed Free) (haccess : r.op.elementAccess? = some access)
    (hstore : access.isStore = value.isSome) (hvalue : ∀ v ∈ value, v.TypedValue Free b.vars)
    (hr : Free → r.operand.VoidFree) :
    Ensures BuildError.Avoided (b.elementOf r access value) fun x =>
      b.Onward Free x.2 ∧ x.2.Made Free r x.1 := by
  refine (pop_ensures hb r).bind ?_
  rintro ⟨index, b1⟩ - ⟨h1, hindex⟩
  refine (pop_ensures h1.typed r).bind ?_
  rintro ⟨array, b2⟩ - ⟨h2, harray⟩
  have helement : Free → (accessedType r access array).VoidFree :=
    fun hfree => accessedType_voidFree (hr hfree) (harray.value.type hfree)
  refine (elementAddress_ensures h2.typed harray (hindex.mono h2.refines) helement).bind ?_
  rintro ⟨address, b3⟩ - ⟨h3, haddress⟩
  have hbefore := (h1.trans h2).trans h3
  refine (indirect_ensures h3.typed haccess hstore haddress
    (fun v hv => (hvalue v hv).mono hbefore.refines) helement).imp ?_
  exact fun x _ ⟨h4, hmade⟩ => ⟨hbefore.trans h4, hmade⟩

theorem elementNode_ensures (hb : b.Typed Free) (haccess : r.op.elementAccess? = some access)
    (hr : Free → r.operand.VoidFree) :
    Ensures BuildError.Avoided (b.elementNode r access) fun x =>
      b.Onward Free x.2 ∧ x.2.Made Free r x.1 := by
  rw [elementNode_eq]
  split
  · rename_i hs
    refine (pop_ensures hb r).bind ?_
    rintro ⟨value, b1⟩ - ⟨h1, hvalue⟩
    refine (elementOf_ensures h1.typed haccess (by simpa using hs) (by simpa using hvalue) hr).imp ?_
    rintro x - ⟨h2, hn⟩
    exact ⟨h1.trans h2, hn⟩
  · rename_i hs
    exact elementOf_ensures hb haccess (by simpa using hs) (by simp) hr

/-- What the builder may rely on in the next record. -/
structure Takes (Free : Prop) (arguments locals : Nat) (b : Builder) (r : Record) : Prop where
  decoded : Decoded arguments locals r
  shaped : r.Shaped
  free : Free → r.operand.VoidFree
  /-- A temporary is stored before it is loaded. -/
  load : r.op = .ldloc → ∀ i, temporary? r = some i → i < b.temporaries.size

/-- Where the node takes the address of a variable, the method declares it. -/
def Addressable (v : Variables) (n : Node) : Prop :=
  n.TakesAddress → ∃ id x ty, n.varId? = some id ∧ v.get? id = some x ∧ x.declared = some ty

theorem typed_markAddress (hb : b.Typed Free) (hn : Addressable b.vars n) :
    b.Onward Free (b.markAddress n) := by
  have hmark : ∀ {id : Nat}, n.TakesAddress → n.varId? = some id →
      b.Onward Free { b with vars := b.vars.markEscaping id } := by
    intro id haddress hid
    obtain ⟨_, x, ty, hid', hx, hty⟩ := hn haddress
    rw [hid] at hid'
    cases hid'
    refine hb.withVars (.markEscaping _ _) (hb.vars.markEscaping ?_)
    intro y hy
    rw [hx] at hy
    cases hy
    exact ⟨ty, hty⟩
  unfold markAddress
  split
  · exact hmark (.inl ‹_›) ‹_›
  · exact hmark (.inr ‹_›) ‹_›
  · exact hb.onward

/-- The address of any other variable has no type. -/
theorem deriveType_undeclared {Q : Node × Builder → Prop} (hn : ¬ Addressable b.vars n) :
    Ensures BuildError.Avoided ((b.markAddress n).deriveType n) Q := by
  obtain ⟨haddress, hno⟩ := Classical.not_imp.mp hn
  have htype := typeOf_address_ensures (v := (b.markAddress n).vars) haddress
  have hstore : afterStore (b.markAddress n).vars n = .ok (b.markAddress n).vars := by
    rcases haddress with hop | hop <;> simp [afterStore, hop]
  -- noting the address changes no declaration
  have hdeclared : ∀ id x, (b.markAddress n).vars.get? id = some x →
      ∃ y, b.vars.get? id = some y ∧ y.declared = x.declared := by
    intro id x hx
    unfold markAddress at hx
    split at hx
    · rw [Variables.markEscaping, Variables.get?_modify] at hx
      split at hx
      · obtain ⟨y, hy, rfl⟩ := Option.map_eq_some_iff.mp hx
        exact ⟨y, hy, rfl⟩
      · exact ⟨x, hx, rfl⟩
    · rw [Variables.markEscaping, Variables.get?_modify] at hx
      split at hx
      · obtain ⟨y, hy, rfl⟩ := Option.map_eq_some_iff.mp hx
        exact ⟨y, hy, rfl⟩
      · exact ⟨x, hx, rfl⟩
    · exact ⟨x, hx, rfl⟩
  unfold deriveType
  cases hd : derive (b.markAddress n).vars n with
  | error e =>
    rcases bind_eq_error.mp hd with ht | ⟨t, -, hd⟩
    · exact .error (htype.failure e ht)
    · rw [hstore] at hd
      cases hd
  | ok x =>
    obtain ⟨t, ht, -⟩ := bind_eq_ok.mp hd
    obtain ⟨id, x, ty, hid, hx, hty⟩ := htype.result t ht
    obtain ⟨y, hy, heq⟩ := hdeclared id x hx
    exact absurd ⟨id, y, ty, hid, hy, heq.trans hty⟩ hno

theorem voidFree_of_refers {p : Operand Place} (h : b.Refers p o) (hp : p.VoidFree) :
    o.VoidFree := by
  cases p with
  | ref p =>
    cases p with
    | localVar i | argument i =>
      cases h
      trivial
    | temporary i =>
      obtain ⟨id, -, rfl⟩ := h
      trivial
    | target t =>
      obtain ⟨k, -, rfl⟩ := h
      trivial
  | _ =>
    cases h
    exact hp

/-- A variable that the method declares has a type. -/
theorem hasType_of_role {i : Nat} {kind : VariableKind} (hb : b.vars.WellTyped Free)
    (h : b.vars.role id = some (kind, i)) (hkind : kind ≠ .synthetic) : b.vars.HasType id := by
  unfold Variables.role at h
  obtain ⟨x, hx, hrole⟩ := Option.map_eq_some_iff.mp h
  cases hrole
  exact hb.plain id x hx hkind

/-- A variable that a load or a store refers to, before the node is made. -/
structure Operands (Free : Prop) (b b1 : Builder) (r : Record) (o : Operand Ref) : Prop where
  onward : b.Onward Free b1
  wellFormed : b1.WellFormed
  method : ∀ c, o = .method c → r.operand = .method c
  free : Free → o.VoidFree
  reads : r.op = .ldloc ∨ r.op = .ldarg → ∀ id, o = .ref (.variable id) → b1.vars.HasType id
  entries : ∀ p ∈ b1.entries, ∀ id ∈ p.2, b1.vars.HasType id
  /-- Only the temporary that is stored now may have no type yet. -/
  temporaries : ∀ id ∈ b1.temporaries,
    b1.vars.HasType id ∨ (r.op = .stloc ∧ o = .ref (.variable id))

theorem operand_typed {b1 : Builder} (hb : b.Typed Free) (hf : b.Filled) (hw : b.WellFormed)
    (hd : b.Declares arguments locals) (hr : b.Takes Free arguments locals r)
    (h : b.operand r = .ok (o, b1)) : Operands Free b b1 r o := by
  have hw1 := (operand_later hw h).1
  rcases operand_ok h with ⟨rfl, hrefers⟩ | ⟨i, hop, hle, rfl, rfl⟩
  · refine ⟨hb.onward, hw1, fun c hc => method_of_refers (hc ▸ hrefers),
      fun hfree => voidFree_of_refers hrefers (hr.free hfree), ?_, hf.entries,
      fun id hid => .inl (hf.temporaries id hid)⟩
    rintro - id rfl
    have hscope := hr.decoded.inScope
    unfold InScope at hscope
    cases hp : r.operand with
    | ref p =>
      rw [hp] at hrefers hscope
      cases p with
      | localVar i =>
        cases hrefers
        exact hasType_of_role hb.vars (hd.locals i hscope) (by simp)
      | argument i =>
        cases hrefers
        exact hasType_of_role hb.vars (hd.arguments i hscope) (by simp)
      | temporary i =>
        obtain ⟨_, hid, ⟨⟩⟩ := hrefers
        exact hf.temporaries id (Array.mem_of_getElem? hid)
      | target t =>
        obtain ⟨k, -, ⟨⟩⟩ := hrefers
    | _ =>
      rw [hp] at hrefers
      cases hrefers
  · have htemp : temporary? r = some i := by simp [temporary?, hop]
    have hstloc : r.op = .stloc := by
      rcases hr.decoded.temporary i htemp with hop | hop
      · exact hop
      · have := hr.load hop i htemp
        omega
    have hfresh := Variables.Refines.addSynthetic b.vars
    refine ⟨?_, hw1, by rintro _ ⟨⟩, fun _ => trivial, ?_, ?_, ?_⟩
    · exact hb.restack rfl hfresh hb.vars.addSynthetic (fun n hn => (hb.trees n hn).mono hfresh)
        fun id hid => (hb.carried id hid).mono hfresh
    · rw [hstloc]
      rintro (⟨⟨⟩⟩ | ⟨⟨⟩⟩)
    · exact fun p hp id hid => (hf.entries p hp id hid).mono hfresh
    · intro id hid
      rcases Array.mem_push.mp hid with hid | rfl
      · exact .inl ((hf.temporaries id hid).mono hfresh)
      · exact .inr ⟨hstloc, rfl⟩

/-- The node of a record is typed, and leaves every temporary with a type. -/
theorem node_ensures (hb : b.Typed Free) (hf : b.Filled) (hw : b.WellFormed)
    (hd : b.Declares arguments locals) (hr : b.Takes Free arguments locals r) :
    Ensures BuildError.Avoided (b.node r) fun x =>
      b.Onward Free x.2 ∧ x.2.Filled ∧ x.2.Made Free r x.1 := by
  unfold node
  split
  · rename_i access haccess
    refine (elementNode_ensures hb haccess hr.free).imp ?_
    rintro ⟨n, b'⟩ hok ⟨h1, hn⟩
    refine ⟨h1, ?_, hn⟩
    obtain ⟨-, -, -, -, -, -, -, -, _, _, _, rfl, -⟩ := elementNode_ok hok
    exact hf.mono rfl rfl h1.refines
  · rename_i he
    refine (operand_ensures b r).bind ?_
    rintro ⟨o, b1⟩ ho -
    have hoperand := operand_typed hb hf hw hd hr ho
    obtain ⟨hshape, hblock⟩ := operand_shaped ho
    refine (plainNode_ensures he hoperand.onward.typed).bind ?_
    rintro ⟨n, b2⟩ hn ⟨h2, hparts⟩
    obtain ⟨-, -, hprepared⟩ := plainNode_prepared hoperand.wellFormed he (hshape ▸ hr.shaped)
      ((operand_later hw ho).2.blocks ▸ hblock) hn
    by_cases haddress : Addressable b2.vars n
    swap
    · exact deriveType_undeclared haddress
    have h3 := typed_markAddress h2.typed haddress
    have hvarId : ∀ id, n.varId? = some id ↔ o = .ref (.variable id) := by
      intro id
      rw [Node.varId?, hparts.operand]
      split
      · simp_all
      · rename_i hno
        exact ⟨by rintro ⟨⟩, fun h => absurd h (hno id)⟩
    have hall := hoperand.onward.trans (h2.trans h3)
    refine (deriveType_made h3.typed hprepared.shaped ?_ hparts.callee ?_ ?_).imp ?_
    · exact fun c hc => (hparts.children c hc).mono h3.refines
    · intro hfree
      have ho := hoperand.free hfree
      refine ⟨?_, ?_, ?_⟩
      · intro f hf
        rw [hparts.operand] at hf
        rwa [hf] at ho
      · intro t ht
        rw [hparts.operand] at ht
        rwa [ht] at ho
      · intro m hm
        rwa [hparts.method m hm] at ho
    · intro hop id hid
      rw [hprepared.op] at hop
      exact (hoperand.reads hop id ((hvarId id).mp hid)).mono (h2.trans h3).refines
    · rintro ⟨n', b'⟩ hok ⟨h4, hderives⟩
      obtain ⟨t, vars, -, rfl, rfl, hrole⟩ := deriveType_ok hok
      have hop' : (n.withType t).op = r.op := by rw [Node.op_withType, hprepared.op]
      have hlast := (h2.trans h3).trans h4
      obtain ⟨-, -, -, -, -, hrestacks⟩ := plainNode_ok he hoperand.method hn
      obtain ⟨_, _, _, hsame, -⟩ := hrestacks.trans (markAddress_restacks b2 n)
      refine ⟨hall.trans h4, ⟨?_, ?_⟩, hderives.tree, ?_, ?_⟩
      · rw [hsame]
        exact fun p hp id hid => (hoperand.entries p hp id hid).mono hlast.refines
      · rw [hsame]
        intro id hid
        rcases hoperand.temporaries id hid with htyped | ⟨hop, ho⟩
        · exact htyped.mono hlast.refines
        · exact hderives.stores (hprepared.op.trans hop) id ((hvarId id).mpr ho)
      · rw [← hop']
        exact hderives.value
      · rw [← hop']
        exact hderives.effect

end Builder

end Trees

end SpuCompiler
