import SpuCompiler.Proofs.Objects.Arrangement
import SpuCompiler.Proofs.Selection.Operations
import SpuCompiler.Selection.Routine

/-!
Code of integer trees. Lowering adds to the objects and the errors of a program and never takes
any away, so a tree that is lowered without an error has code for each of its nodes. By induction
over the tree, that code computes its value.
-/

namespace SpuCompiler.Selection

open Machine Bytecode Trees Objects

variable {p p' : Progress} {α β : Type} {n : Node} {regs : List Register} {o : Option Register}

/-! ## Lowering only adds -/

/-- Later progress: more errors, and the same objects with others after them. -/
structure Progress.Grows (p q : Progress) : Prop where
  errors : p.errors.size ≤ q.errors.size
  arena : p.arena.Adds q.arena

theorem Progress.Grows.refl (p : Progress) : p.Grows p := ⟨Nat.le_refl _, .refl⟩

theorem Progress.Grows.trans {q r : Progress} (h : p.Grows q) (h' : q.Grows r) : p.Grows r :=
  ⟨h.errors.trans h'.errors, h.arena.trans h'.arena⟩

def Growing {α : Type} (m : LowerM α) : Prop := ∀ p : Progress, p.Grows (m.run p).2

variable {m : LowerM α} {f : α → LowerM β}

theorem Growing.pure (x : α) : Growing (pure x) := .refl

theorem Growing.bind (hm : Growing m) (hf : ∀ x, Growing (f x)) : Growing (m >>= f) :=
  fun p => (hm p).trans (hf _ _)

theorem Growing.grows (h : Growing m) {x : α} (hrun : m.run p = (x, p')) : p.Grows p' := by
  have := h p
  rwa [hrun] at this

/-- Where a sequence makes no error, neither do its parts. -/
theorem Growing.run_bind {y : β} (hm : Growing m) (hf : ∀ x, Growing (f x))
    (hrun : (m >>= f).run p = (y, p')) (herr : p'.errors.size ≤ p.errors.size) :
    ∃ x q, m.run p = (x, q) ∧ (f x).run q = (y, p') ∧ q.errors.size ≤ p.errors.size ∧
      p'.errors.size ≤ q.errors.size := by
  rcases hrun₁ : m.run p with ⟨x, q⟩
  rw [StateT.run_bind, hrun₁] at hrun
  have herr₁ := (hm.grows hrun₁).errors
  have herr₂ := ((hf x).grows hrun).errors
  exact ⟨x, q, rfl, hrun, herr₂.trans herr, herr.trans herr₁⟩

namespace Lowering

/-- What lowering does, one thing at a time: it writes code, notes an error, or counts a constant,
which has an object of its own unless its name is taken. -/
inductive Step (L : Lowering) : Progress → Progress → Prop
  | code (p : Progress) (stream : Stream) : Step L p { p with stream := stream }
  | error (p : Progress) (e : SelectionError) : Step L p { p with errors := p.errors.push e }
  | constant {p : Progress} {id : ObjectId} {arena : Arena} {data : List UInt8} :
      p.arena.addData s!"{L.name}#const{p.constants}" data = .ok (id, arena) →
      Step L p { p with constants := p.constants + 1, arena := arena }
  | refused (p : Progress) : Step L p { p with constants := p.constants + 1 }

abbrev Steps (L : Lowering) : Progress → Progress → Prop := Relation.ReflTransGen L.Step

def Stepping {α : Type} (L : Lowering) (m : LowerM α) : Prop :=
  ∀ p : Progress, L.Steps p (m.run p).2

section Stepping

variable {L : Lowering} {q : Progress}

theorem Stepping.pure (x : α) : L.Stepping (pure x) := fun _ => .refl

theorem Stepping.bind (hm : L.Stepping m) (hf : ∀ x, L.Stepping (f x)) : L.Stepping (m >>= f) :=
  fun p => (hm p).trans (hf _ _)

theorem Stepping.emit (e : Emit α) : L.Stepping (emit e) := fun p => .single (.code p _)

theorem Step.grows (h : L.Step p q) : p.Grows q := by
  cases h with
  | code => exact ⟨Nat.le_refl _, .refl⟩
  | error => exact ⟨(Array.size_push ..).symm ▸ Nat.le_succ _, .refl⟩
  | constant hadd => exact ⟨Nat.le_refl _, .insert hadd⟩
  | refused => exact ⟨Nat.le_refl _, .refl⟩

theorem Steps.grows (h : L.Steps p q) : p.Grows q := by
  induction h with
  | refl => exact .refl p
  | tail _ hstep ih => exact ih.trans hstep.grows

theorem Stepping.growing (h : L.Stepping m) : Growing m := fun p => Steps.grows (h p)

end Stepping

theorem emit_growing (e : Emit α) : Growing (emit e) := fun _ => ⟨Nat.le_refl _, .refl⟩

theorem addData_get? {a b : Arena} {name : String} {data : List UInt8} {id : ObjectId}
    (h : a.addData name data = .ok (id, b)) :
    b.get? id = some { name := name, kind := .data, data := data } := by
  obtain ⟨rfl, rfl⟩ := Arena.insert_ok h
  exact Arena.get?_push_size _ _

/-- A wide constant has an object of its own, or an error. -/
theorem loadWide_cases {L : Lowering} {bits : BitVec 64} (h : (L.loadWide n bits).run p = (o, p')) :
    (p'.errors.size = p.errors.size + 1 ∧ p'.arena = p.arena) ∨
    ∃ name id r, p.arena.addData name (Binary.bigEndian 8 bits.toNat ++ List.replicate 8 0) =
        .ok (id, p'.arena) ∧ p'.errors = p.errors ∧ o = some r ∧
      (Emit.targeted .lqr (.object id)).run p.stream = (r, p'.stream) := by
  unfold loadWide at h
  simp only [StateT.run_bind, StateT.run_get, StateT.run_set, pure_bind] at h
  split at h
  · rename_i id arena hadd
    cases h
    exact .inr ⟨_, id, _, hadd, rfl, rfl, rfl⟩
  · cases h
    exact .inl ⟨Array.size_push .., rfl⟩

theorem loadWide_stepping (L : Lowering) (n : Node) (bits : BitVec 64) :
    L.Stepping (L.loadWide n bits) := by
  intro p
  unfold loadWide
  simp only [StateT.run_bind, StateT.run_get, StateT.run_set, pure_bind]
  split
  · rename_i hadd
    exact .tail (.single (.constant hadd)) (.code _ _)
  · exact .tail (.single (.refused p)) (.error _ _)

theorem lowerNode_stepping (L : Lowering) (n : Node) (regs : List Register) :
    L.Stepping (L.lowerNode n regs) := by
  unfold lowerNode
  split
  · exact loadWide_stepping _ _ _
  · refine Stepping.bind (fun p => .refl) fun p => ?_
    split
    · exact .emit _
    · exact fun q => .single (.error q _)

theorem orFresh_stepping (L : Lowering) (o : Option Register) : L.Stepping (orFresh o) := by
  cases o with
  | none => exact .emit _
  | some r => exact .pure r

mutual

theorem lower_stepping (L : Lowering) : ∀ n, L.Stepping (L.lower n)
  | .leaf h => by
    rw [lower]
    exact lowerNode_stepping _ _ _
  | .unary h l => by
    rw [lower]
    exact (L.lower_stepping l).bind fun o => (L.orFresh_stepping o).bind fun r =>
      lowerNode_stepping _ _ _
  | .rightOnly h r => by
    rw [lower]
    exact (L.lower_stepping r).bind fun o => (L.orFresh_stepping o).bind fun r =>
      lowerNode_stepping _ _ _
  | .binary h l r => by
    rw [lower]
    exact (L.lower_stepping l).bind fun o => (L.orFresh_stepping o).bind fun _ =>
      (L.lower_stepping r).bind fun o => (L.orFresh_stepping o).bind fun _ =>
      lowerNode_stepping _ _ _
  | .call h m args => by
    rw [lower]
    exact (L.lowerArgs_stepping args).bind fun _ => lowerNode_stepping _ _ _

theorem lowerArgs_stepping (L : Lowering) : ∀ ns, L.Stepping (L.lowerArgs ns)
  | [] => by
    rw [lowerArgs]
    exact .pure []
  | n :: ns => by
    rw [lowerArgs]
    exact (L.lower_stepping n).bind fun o => (L.orFresh_stepping o).bind fun r =>
      (L.lowerArgs_stepping ns).bind fun rs => .pure _

end

theorem lowerRoots_stepping (L : Lowering) (ns : List Node) : L.Stepping (L.lowerRoots ns) := by
  induction ns with
  | nil => exact .pure ()
  | cons n ns ih => exact (L.lower_stepping n).bind fun _ => ih

theorem takeCode_stepping (L : Lowering) : L.Stepping takeCode := fun p => .single (.code p _)

theorem lowerBlocks_stepping (L : Lowering) (bs : List Block) : L.Stepping (L.lowerBlocks bs) := by
  induction bs with
  | nil => exact .pure []
  | cons b bs ih =>
    exact (L.lowerRoots_stepping _).bind fun _ => L.takeCode_stepping.bind fun _ =>
      ih.bind fun _ => .pure _

theorem lowerRoutine_stepping (L : Lowering) (frame : Frame) (r : Routine) :
    L.Stepping (L.lowerRoutine frame r) :=
  (Stepping.emit _).bind fun _ => L.takeCode_stepping.bind fun _ =>
    (L.lowerBlocks_stepping _).bind fun _ => (Stepping.emit _).bind fun _ =>
    L.takeCode_stepping.bind fun _ => .pure _

theorem orFresh_growing (o : Option Register) : Growing (orFresh o) := by
  cases o with
  | none => exact emit_growing _
  | some r => exact .pure r

theorem lowerNode_growing (L : Lowering) (n : Node) (regs : List Register) :
    Growing (L.lowerNode n regs) := (L.lowerNode_stepping n regs).growing

theorem lower_growing (L : Lowering) (n : Node) : Growing (L.lower n) := (L.lower_stepping n).growing

theorem lowerArgs_growing (L : Lowering) (ns : List Node) : Growing (L.lowerArgs ns) :=
  (L.lowerArgs_stepping ns).growing

theorem lowerRoots_growing (L : Lowering) (ns : List Node) : Growing (L.lowerRoots ns) :=
  (L.lowerRoots_stepping ns).growing

theorem lowerBlocks_growing (L : Lowering) (bs : List Block) : Growing (L.lowerBlocks bs) :=
  (L.lowerBlocks_stepping bs).growing

theorem wideConstant?_eq_none (h : ∀ c, n.op ≠ .ldc c) : wideConstant? n = none := by
  unfold wideConstant?
  split
  · exact absurd ‹_› (h _)
  · exact absurd ‹_› (h _)
  · rfl

/-- A node that is lowered without an error is a wide constant or has code. -/
theorem lowerNode_cases {L : Lowering} (hrun : (L.lowerNode n regs).run p = (o, p'))
    (herr : p'.errors.size ≤ p.errors.size) :
    (∃ bits, wideConstant? n = some bits ∧ (L.loadWide n bits).run p = (o, p')) ∨
    ∃ e, Code.of ⟨L.options, L.vars, p.arena⟩ n regs = .ok e ∧ (emit e).run p = (o, p') := by
  unfold lowerNode at hrun
  split at hrun
  · rename_i bits hwide
    exact .inl ⟨bits, hwide, hrun⟩
  · simp only [StateT.run_bind, StateT.run_get, pure_bind] at hrun
    split at hrun
    · rename_i e he
      exact .inr ⟨e, he, hrun⟩
    · cases hrun
      simp at herr

/-- A node that is lowered without an error has code. -/
theorem lowerNode_ok {L : Lowering} (hrun : (L.lowerNode n regs).run p = (o, p'))
    (herr : p'.errors.size ≤ p.errors.size) (hwide : wideConstant? n = none)
    (hpops : n.op.pops = .fixed regs.length) :
    ∃ e, Code.ofOp ⟨L.options, L.vars, p.arena⟩ n regs = .ok e ∧
      e.run p.stream = (o, p'.stream) := by
  rcases lowerNode_cases hrun herr with ⟨bits, hbits, -⟩ | ⟨e, he, hemit⟩
  · rw [hwide] at hbits
    cases hbits
  · simp only [Code.of, hpops, if_true] at he
    cases hemit
    exact ⟨e, he, rfl⟩

end Lowering

/-! ## Values of trees -/

/-- The data objects of an arena are in the local store, each from a quadword on. -/
def Loaded (address : Nat → Address) (arena : Arena) (s : State) : Prop :=
  ∀ id o, arena.get? id = some o → o.kind = .data →
    address id &&& 0x3FFF0#18 = address id ∧
      ∀ j b, o.data[j]? = some b → s.store (address id + BitVec.ofNat 18 j) = b.toBitVec

/-- The integer variables in registers are known and have the values of the environment. -/
def Held (vars : Variables) (env : Nat → IntegerValue) (a : Stream) (s : State) : Prop :=
  ∀ id v r t, vars.get? id = some v → v.storage = .register r → v.stackType = some t →
    t.isInteger = true → Holds (env id) (.virtual r) a s

/-- Code of a tree, if it is lowered without an error, leaves the value in its register. -/
def Selects (address : Nat → Address) (L : Lowering) (env : Nat → IntegerValue) (n : Node)
    (v : IntegerValue) : Prop :=
  ∀ p p' o s, (L.lower n).run p = (o, p') → p'.errors.size ≤ p.errors.size →
    Held L.vars env p.stream s → Loaded address p'.arena s →
    ∃ t, Advances address p.stream p'.stream s t ∧ Yields v o p'.stream t

variable {address : Nat → Address} {L : Lowering} {env : Nat → IntegerValue} {x y v : IntegerValue}
  {h : Head} {l r : Node} {s : State} {ctx : Context} {a : Stream} {e : Emit (Option Register)}

theorem Held.after {vars : Variables} {b : Stream} {t : State} (h : Held vars env a s)
    (hadv : Advances address a b s t) : Held vars env b t :=
  fun id v r t hget hstorage htype hint => (h id v r t hget hstorage htype hint).after hadv

theorem Loaded.before {q : Progress} {t : State} (h : Loaded address q.arena s)
    (hgrows : p.Grows q) (hstore : t.store = s.store) : Loaded address p.arena t :=
  fun id o ho hkind => hstore ▸ h id o (hgrows.arena.get? id o ho) hkind

/-- An operand is lowered before what uses it, which has its register. -/
theorem Selects.operand (hn : Selects address L env n x) {f : Register → LowerM α}
    (hf : ∀ r, Growing (f r)) {o : α}
    (hrun : (L.lower n >>= fun r => Lowering.orFresh r >>= f).run p = (o, p'))
    (herr : p'.errors.size ≤ p.errors.size) (hheld : Held L.vars env p.stream s)
    (hloaded : Loaded address p'.arena s) :
    ∃ r q t, (f r).run q = (o, p') ∧ p'.errors.size ≤ q.errors.size ∧
      Advances address p.stream q.stream s t ∧ Holds x r q.stream t ∧
      Loaded address p'.arena t := by
  rcases hrun₁ : (L.lower n).run p with ⟨o₁, q⟩
  rw [StateT.run_bind, hrun₁] at hrun
  have hgrows : q.Grows p' := ((Lowering.orFresh_growing o₁).bind hf).grows hrun
  obtain ⟨t, hadv, r, rfl, hr⟩ := hn p q o₁ s hrun₁ (hgrows.errors.trans herr) hheld
    (hloaded.before hgrows rfl)
  have herr' := herr.trans ((L.lower_growing n).grows hrun₁).errors
  exact ⟨r, q, t, hrun, herr', hadv, hr, hloaded.before (.refl p') hadv.store⟩

theorem Selects.operands (hl : Selects address L env l x) (hr : Selects address L env r y)
    (hrun : (L.lower (.binary h l r)).run p = (o, p'))
    (herr : p'.errors.size ≤ p.errors.size) (hheld : Held L.vars env p.stream s)
    (hloaded : Loaded address p'.arena s) :
    ∃ ra rb q t, (L.lowerNode (.binary h l r) [ra, rb]).run q = (o, p') ∧
      p'.errors.size ≤ q.errors.size ∧ Advances address p.stream q.stream s t ∧
      Holds x ra q.stream t ∧ Holds y rb q.stream t := by
  rw [Lowering.lower] at hrun
  obtain ⟨ra, p₁, s₁, hrun₁, herr₁, hadv₁, hra, hloaded₁⟩ := hl.operand
    (fun a => (L.lower_growing r).bind fun o => (Lowering.orFresh_growing o).bind fun b =>
      L.lowerNode_growing _ [a, b]) hrun herr hheld hloaded
  obtain ⟨rb, q, t, hnode, herr₂, hadv₂, hrb, -⟩ := hr.operand
    (fun b => L.lowerNode_growing _ [ra, b]) hrun₁ herr₁ (hheld.after hadv₁) hloaded₁
  exact ⟨ra, rb, q, t, hnode, herr₂, hadv₁.trans hadv₂, hra.after hadv₂, hrb⟩

/-- Code of a node from code of its operation. -/
theorem lowerNode_computes {Q : Option Register → Stream → State → Prop}
    (hrun : (L.lowerNode n regs).run p = (o, p')) (herr : p'.errors.size ≤ p.errors.size)
    (hwide : Lowering.wideConstant? n = none) (hpops : n.op.pops = .fixed regs.length)
    (hcode : ∀ e, Code.ofOp ⟨L.options, L.vars, p.arena⟩ n regs = .ok e →
      Computes address e p.stream s Q) :
    ∃ t, Advances address p.stream p'.stream s t ∧ Q o p'.stream t := by
  obtain ⟨e, he, hstream⟩ := Lowering.lowerNode_ok hrun herr hwide hpops
  obtain ⟨x, b, t, hx, hadv, hQ⟩ := hcode e he
  rw [hstream] at hx
  cases hx
  exact ⟨t, hadv, hQ⟩

theorem selects_word {v : BitVec 32} (op : h.op = .ldc .i4)
    (operand : h.operand = .int32 v) : Selects address L env (.leaf h) (.word v) := by
  intro p p' o s hrun herr hheld hloaded
  rw [Lowering.lower] at hrun
  refine lowerNode_computes hrun herr ?_ ?_ fun e he => ?_
  · simp [Lowering.wideConstant?, Node.op, Node.head, op]
  · simp [Node.op, Node.head, op, Op.pops]
  · have he' : Code.value (Emit.loadImmediate v.toInt) = .ok e := by
      simpa [Code.ofOp, Node.op, Node.operand, Node.head, op, operand, Code.constant] using he
    cases he'
    exact Code.value_gives (Emit.loadImmediate_computes v) (Quadword.word_splat v 0)

theorem selects_long {v : BitVec 64} (op : h.op = .ldc .i8)
    (operand : h.operand = .int64 v) : Selects address L env (.leaf h) (.long v) := by
  intro p p' o s hrun herr hheld hloaded
  have hwide : Lowering.wideConstant? (.leaf h) = some v := by
    simp [Lowering.wideConstant?, Node.op, Node.operand, Node.head, op, operand]
  rw [Lowering.lower] at hrun
  unfold Lowering.lowerNode at hrun
  rw [hwide] at hrun
  rcases Lowering.loadWide_cases hrun with ⟨hmore, -⟩ | ⟨name, id, r, hadd, -, rfl, hstream⟩
  · omega
  · obtain ⟨haligned, hbytes⟩ := hloaded id _ (Lowering.addData_get? hadd) rfl
    have hlqr : Computes address (Emit.targeted .lqr (.object id)) p.stream s
        (Gives (s.load (address id))) := Emit.lqr_computes id
    obtain ⟨r', b, t, hrun', hadv, hr⟩ := hlqr
    rw [hstream] at hrun'
    cases hrun'
    exact ⟨t, hadv, r, rfl, hr.holds (long_load haligned hbytes)⟩

theorem selects_load {id r : Nat} {v : Variable} {t : StackType}
    (op : h.op = .ldloc ∨ h.op = .ldarg) (operand : h.operand = .ref (.variable id))
    (get : L.vars.get? id = some v) (storage : v.storage = .register r)
    (type : v.stackType = some t) (integer : t.isInteger = true) :
    Selects address L env (.leaf h) (env id) := by
  intro p p' o s hrun herr hheld hloaded
  rw [Lowering.lower] at hrun
  refine lowerNode_computes hrun herr ?_ ?_ fun e he => ?_
  · rcases op with op | op <;> simp [Lowering.wideConstant?, Node.op, Node.head, op]
  · rcases op with op | op <;> simp [Node.op, Node.head, op, Op.pops]
  · have he' : Code.value (pure (.virtual r)) = .ok e := by
      rcases op with op | op <;>
        simpa [Code.ofOp, Node.op, Node.head, op, Code.loadVariable, Node.varId?, Node.operand,
          operand, get, storage] using he
    cases he'
    exact Code.value_yields (.pure (hheld id v r t get storage type integer))

/-- Code of an operation of one operand. -/
theorem unary_computes {r : Register} (op : isUnaryInteger h.op = true)
    (typed : typeOf ctx.vars (.unary h l) = .ok h.type)
    (hfits : x.Fits l.type) (he : Code.ofOp ctx (.unary h l) [r] = .ok e) (hr : Holds x r a s)
    (hv : Node.unaryValue h.op x = some v) : Computes address e a s (Yields v) := by
  unfold Code.ofOp at he
  rcases IntegerTree.unary_cases op typed with ⟨hop, ht⟩ | ⟨c, hop, -, -⟩
  · have hkind : ValueKind.of (Node.unary h l).type = x.kind :=
      (congrArg ValueKind.of ht).trans hfits.2
    rw [hkind] at he
    rcases hop with hop | hop
    · rw [show (Node.unary h l).op = .neg from hop] at he
      rw [hop] at hv
      cases hv
      exact Code.neg_computes he hr
    · rw [show (Node.unary h l).op = .not from hop] at he
      rw [hop] at hv
      cases hv
      exact Code.not_computes he hr
  · have hkind : Code.leftKind (.unary h l) = x.kind := hfits.2
    rw [show (Node.unary h l).op = .conv c from hop, hkind] at he
    rw [hop] at hv
    exact Code.conv_computes he hr hv

/-- Code of an operation of two operands. -/
theorem binary_computes {ra rb : Register} (op : isBinaryInteger h.op = true)
    (typed : typeOf ctx.vars (.binary h l r) = .ok h.type)
    (hx : x.Fits l.type) (hy : y.Fits r.type) (he : Code.ofOp ctx (.binary h l r) [ra, rb] = .ok e)
    (hra : Holds x ra a s) (hrb : Holds y rb a s) (hv : Node.binaryValue h.op x y = some v) :
    Computes address e a s (Yields v) := by
  unfold Code.ofOp at he
  rcases IntegerTree.binary_cases op typed with ⟨o, hop, -, ht⟩ | ⟨o, hop, ht, -⟩ | ⟨o, hop, -, -⟩
  · have hkind : ValueKind.of (Node.binary h l r).type = x.kind :=
      (kind_of_arithType ht hx.1 hy.1).2.1.symm.trans hx.2
    rw [show (Node.binary h l r).op = .arith o from hop, hkind] at he
    rw [hop] at hv
    exact Code.arith_computes he hra hrb hv
  · have hkind : ValueKind.of (Node.binary h l r).type = x.kind :=
      (congrArg ValueKind.of ht).trans hx.2
    rw [show (Node.binary h l r).op = .shift o from hop, hkind] at he
    rw [hop] at hv
    exact Code.shift_computes he hra hrb hv
  · have hkind : Code.leftKind (.binary h l r) = x.kind := hx.2
    rw [show (Node.binary h l r).op = .compare o from hop, hkind] at he
    rw [hop] at hv
    obtain ⟨b, hb, rfl⟩ := Option.map_eq_some_iff.mp hv
    exact Code.compare_computes he hra hrb hb

theorem selects_unary (op : isUnaryInteger h.op = true)
    (typed : typeOf L.vars (.unary h l) = .ok h.type) (hl : Selects address L env l x)
    (hfits : x.Fits l.type) (hv : Node.unaryValue h.op x = some v) :
    Selects address L env (.unary h l) v := by
  intro p p' o s hrun herr hheld hloaded
  rw [Lowering.lower] at hrun
  obtain ⟨r, q, t, hnode, herr', hadv, hr, -⟩ :=
    hl.operand (fun r => L.lowerNode_growing _ [r]) hrun herr hheld hloaded
  have hwide : ∀ c, (Node.unary h l).op ≠ .ldc c := fun c hc => by
    rw [show h.op = .ldc c from hc] at op
    cases op
  have hpops : h.op.pops = .fixed 1 := by
    rcases IntegerTree.unary_cases op typed with ⟨hop | hop, -⟩ | ⟨c, hop, -⟩ <;> rw [hop] <;> rfl
  obtain ⟨u, hadv', hu⟩ := lowerNode_computes hnode herr' (Lowering.wideConstant?_eq_none hwide)
    hpops fun e he => unary_computes op typed hfits he hr hv
  exact ⟨u, hadv.trans hadv', hu⟩

theorem selects_binary (op : isBinaryInteger h.op = true)
    (typed : typeOf L.vars (.binary h l r) = .ok h.type)
    (hl : Selects address L env l x) (hr : Selects address L env r y) (hx : x.Fits l.type)
    (hy : y.Fits r.type) (hv : Node.binaryValue h.op x y = some v) :
    Selects address L env (.binary h l r) v := by
  intro p p' o s hrun herr hheld hloaded
  obtain ⟨ra, rb, q, t, hnode, herr', hadv, hra, hrb⟩ := hl.operands hr hrun herr hheld hloaded
  have hwide : ∀ c, (Node.binary h l r).op ≠ .ldc c := fun c hc => by
    rw [show h.op = .ldc c from hc] at op
    cases op
  have hpops : h.op.pops = .fixed 2 := by
    rcases IntegerTree.binary_cases op typed with ⟨o, hop, -⟩ | ⟨o, hop, -⟩ | ⟨o, hop, -⟩ <;>
      rw [hop] <;> rfl
  obtain ⟨u, hadv', hu⟩ := lowerNode_computes hnode herr' (Lowering.wideConstant?_eq_none hwide)
    hpops fun e he => binary_computes op typed hx hy he hra hrb hv
  exact ⟨u, hadv.trans hadv', hu⟩

theorem selects_integerTree (hn : IntegerTree L.vars n) (henv : L.vars.Typed env)
    (hshift : n.ShiftsInRange env) (hv : n.integer? env = some v) :
    Selects address L env n v := by
  induction hn generalizing v with
  | word op operand typed =>
    obtain rfl : _ = v := by simpa [Node.integer?, Node.leafValue, op, operand] using hv
    exact selects_word op operand
  | long op operand typed =>
    obtain rfl : _ = v := by simpa [Node.integer?, Node.leafValue, op, operand] using hv
    exact selects_long op operand
  | load op operand get storage type integer typed =>
    obtain rfl : _ = v := by
      rcases op with op | op <;> simpa [Node.integer?, Node.leafValue, op, operand] using hv
    exact selects_load op operand get storage type integer
  | unary op left typed ih =>
    obtain ⟨x, hx, hfits⟩ := left.exists_value henv hshift
    rw [Node.integer?, hx, Option.bind_some] at hv
    exact selects_unary op typed (ih hshift hx) hfits hv
  | binary op left right typed ihl ihr =>
    obtain ⟨x, hx, hxfits⟩ := left.exists_value henv hshift.1
    obtain ⟨y, hy, hyfits⟩ := right.exists_value henv hshift.2.1
    rw [Node.integer?, hx, hy, Option.bind_some, Option.bind_some] at hv
    exact selects_binary op typed (ihl hshift.1 hx) (ihr hshift.2.1 hy) hxfits hyfits hv

end SpuCompiler.Selection
