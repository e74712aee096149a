import SpuCompiler.Proofs.Trees.PlacedTrees

/-!
Comparisons that branch. A compare-and-branch can be taken apart into the comparison and a test of
its result, with the same target. The builder asks of a comparison that its operands can be
compared, and asks nothing of the operands of a compare-and-branch: the code with the two
instructions is accepted where the code with the one is accepted and its operands can be compared,
and a branch on operands that no comparison takes is accepted.
-/

namespace SpuCompiler.Trees

open Metadata Bytecode

variable {φ : Nat → Nat}
variable {m : Method} {body : Body} {k n : Nat} {r : Record}

namespace Builder

variable {b : Builder} {t : StackType} {rest : List (Option StackType)}

/-! ## Types on the stack -/

/-- The types of the values on the stack, the topmost first. -/
def stackTypes (b : Builder) : List (Option StackType) :=
  b.trees.map (fun n => some n.type) ++ b.carried.map fun id => (b.vars.get? id).bind (·.stackType)

def dropTop (b : Builder) : Builder :=
  match b.trees with
  | _ :: trees => { b with trees := trees }
  | [] => { b with carried := b.carried.tail }

def push (b : Builder) (n : Node) : Builder := { b with trees := n :: b.trees }

theorem stackTypes_relocate (b : Builder) : (b.relocate φ).stackTypes = b.stackTypes := by
  simp [stackTypes, relocate, Function.comp_def]

theorem dropTop_relocate (b : Builder) : (b.relocate φ).dropTop = b.dropTop.relocate φ := by
  have htrees' : (b.relocate φ).trees = b.trees.map (Node.relocate φ) := rfl
  unfold dropTop
  rw [htrees']
  cases htrees : b.trees with
  | nil => simp [relocate, htrees]
  | cons n trees => rfl

theorem blockAt?_dropTop (b : Builder) (offset : Nat) :
    b.dropTop.blockAt? offset = b.blockAt? offset := by
  unfold dropTop
  split <;> rfl

theorem stackTypes_dropTop (b : Builder) : b.dropTop.stackTypes = b.stackTypes.tail := by
  unfold dropTop stackTypes
  split
  · rename_i htrees
    simp [htrees]
  · rename_i htrees
    simp [htrees]

theorem pop_of_stackTypes (h : b.stackTypes = some t :: rest) (r : Record) :
    ∃ n, b.pop r = .ok (n, b.dropTop) ∧ n.type = t := by
  unfold stackTypes at h
  unfold pop dropTop
  cases htrees : b.trees with
  | cons n trees =>
    rw [htrees] at h
    simp only [List.map_cons, List.cons_append, List.cons.injEq, Option.some.injEq] at h
    exact ⟨n, rfl, h.1⟩
  | nil =>
    cases hcarried : b.carried with
    | nil => simp [htrees, hcarried] at h
    | cons id carried =>
      rw [htrees, hcarried] at h
      simp only [List.map_nil, List.nil_append, List.map_cons, List.cons.injEq] at h
      obtain ⟨v, hv, ht⟩ := Option.bind_eq_some_iff.mp h.1
      refine ⟨loadNode id r.offset t, ?_, rfl⟩
      simp [load, deriveType, derive, typeOf, afterStore, Node.op, Node.head, Node.variableOf,
        Node.varId?, Node.operand, hv, ht, bind, Except.bind, pure, Except.pure, Node.withType,
        loadNode]

/-- Two values of known types are taken from the stack. -/
theorem popMany_of_stackTypes {u : StackType} (h : b.stackTypes = some u :: some t :: rest)
    (r : Record) :
    ∃ x y, b.popMany r [] 2 = .ok ([x, y], b.dropTop.dropTop) ∧ x.type = t ∧ y.type = u := by
  obtain ⟨y, hy, hu⟩ := pop_of_stackTypes h r
  have hrest : b.dropTop.stackTypes = some t :: rest := by rw [stackTypes_dropTop, h, List.tail_cons]
  obtain ⟨x, hx, ht⟩ := pop_of_stackTypes hrest r
  refine ⟨x, y, ?_, ht, hu⟩
  simp only [popMany, hy, hx, bind, Except.bind]

/-! ## Steps -/

section Steps

variable {b : Builder} {t u : StackType} {rest : List (Option StackType)}

/-- A conditional branch takes its values whatever their types are, and goes on as a branch. -/
theorem step_conditional {target count : Nat} {values : List Node} {b' : Builder}
    (hop : (∃ c, r.op = .branchCompare c) ∨ r.op = .brtrue ∨ r.op = .brfalse)
    (hoperand : r.operand = .ref (.target target)) (hcount : r.op.pops = .fixed count)
    (hpops : (b.enterAt r.offset).popMany r [] count = .ok (values, b')) :
    ∃ n, b.step r = if ((b.enterAt r.offset).blockAt? target).isSome
      then b'.branch r n else stackError r (.invalidTarget target) := by
  obtain ⟨haccess, hbranch, htype, hmark⟩ : r.op.elementAccess? = none ∧ r.op.isBranch = true ∧
      (∀ o, derive b'.vars (.plain { op := r.op, operand := o, offset := r.offset } values[0]?
        values[1]?) = .ok (.plain { op := r.op, operand := o, offset := r.offset } values[0]?
        values[1]?, b'.vars)) ∧
      ∀ o, b'.markAddress (.plain { op := r.op, operand := o, offset := r.offset } values[0]?
        values[1]?) = b' := by
    rcases hop with ⟨c, hop⟩ | hop | hop
    all_goals
      rw [hop]
      refine ⟨rfl, rfl, ?_, ?_⟩
      all_goals
        intro o
        cases values[0]? <;> cases values[1]? <;> rfl
  cases hblock : (b.enterAt r.offset).blockAt? target with
  | none =>
    refine ⟨.leaf { op := .nop, offset := 0 }, ?_⟩
    simp only [step, node, haccess, operand, hoperand, hblock, Option.isSome_none, Bool.false_eq_true,
      if_false]
    rfl
  | some id =>
    refine ⟨.plain { op := r.op, operand := .ref (.block id), offset := r.offset } values[0]?
      values[1]?, ?_⟩
    simp only [step, node, haccess, operand, hoperand, hblock, plainNode, hcount, hpops, bind,
      Except.bind, pure, Except.pure, hmark, deriveType, htype, hbranch, if_true, Option.isSome_some]

/-- A comparison takes two values that can be compared, and leaves a tree. -/
theorem step_compare {c : Compare} (hop : r.op = .compare c) (hoperand : r.operand = .none)
    (hstop : (b.enterAt r.offset).blockAt? r.stop = none)
    (h : (b.enterAt r.offset).stackTypes = some u :: some t :: rest) :
    if comparable t u then ∃ n, b.step r = .ok ((b.enterAt r.offset).dropTop.dropTop.push n)
    else ∃ e, b.step r = .error e := by
  obtain ⟨x, y, hpops, hx, hy⟩ := popMany_of_stackTypes h r
  have hstop' : (b.enterAt r.offset).dropTop.dropTop.blockAt? r.stop = none := by
    rw [blockAt?_dropTop, blockAt?_dropTop, hstop]
  have hnode : (b.enterAt r.offset).node r = (b.enterAt r.offset).dropTop.dropTop.deriveType
      (.binary { op := .compare c, operand := .none, offset := r.offset } x y) := by
    simp only [node, hop, Op.elementAccess?, operand, hoperand, plainNode, Op.pops, hpops, bind,
      Except.bind, pure, Except.pure]
    rfl
  split
  · rename_i hcomparable
    refine ⟨.binary { op := .compare c, operand := .none, offset := r.offset, type := .int32 } x y,
      ?_⟩
    have hfall (n : Node) : ((b.enterAt r.offset).dropTop.dropTop.push n).fallThrough r =
        .ok ((b.enterAt r.offset).dropTop.dropTop.push n) := by
      unfold fallThrough
      rw [if_neg]
      rintro ⟨-, -, hblock⟩
      change ((b.enterAt r.offset).dropTop.dropTop.blockAt? r.stop).isSome = true at hblock
      rw [hstop'] at hblock
      cases hblock
    simp only [step, hnode, deriveType, derive, typeOf, Node.op, Node.head, Node.leftType,
      Node.rightType, Node.left?, Node.right?, hx, hy, hcomparable, afterStore, bind, Except.bind,
      pure, Except.pure, if_true, place, producesValue, hop, Op.pushes]
    exact hfall _
  · rename_i hcomparable
    simp only [step, hnode, deriveType, derive, typeOf, Node.op, Node.head, Node.leftType,
      Node.rightType, Node.left?, Node.right?, hx, hy, hcomparable, bind, Except.bind,
      Node.incompatible]
    exact ⟨_, rfl⟩

end Steps

end Builder

/-! ## Instructions taken apart -/

/-- A compare-and-branch, and the comparison and the test it is taken apart into. -/
structure Parted (φ : Nat → Nat) (r s t : Record) : Prop where
  branch : ∃ c, r.op = .branchCompare c
  compare : ∃ c, s.op = .compare c
  test : t.op = .brtrue ∨ t.op = .brfalse
  operand : s.operand = .none
  target : ∃ x, r.operand = .ref (.target x) ∧ t.operand = .ref (.target (φ x))
  offset : s.offset = φ r.offset
  middle : s.stop = t.offset
  stop : t.stop = φ r.stop
  /-- No instruction is moved to the test. -/
  between : ∀ x, φ x ≠ t.offset

theorem exists_moved (hφ : StrictMono φ) (r : Record) : ∃ r', Record.Moved φ r r' := by
  have hle : φ r.offset ≤ φ r.stop := hφ.monotone (Nat.le_add_right ..)
  have hlt : φ r.offset < φ r.stop ↔ r.offset < r.stop := hφ.lt_iff_lt
  refine ⟨⟨r.op, r.operand.map (Place.relocate φ), φ r.offset, φ r.stop - φ r.offset, r.name⟩,
    ⟨rfl, rfl, rfl, Nat.add_sub_of_le hle, ?_⟩⟩
  dsimp only [Record.stop] at hlt ⊢
  omega

namespace Builder

variable {r s t : Record} {b : Builder} {l u : StackType} {rest : List (Option StackType)}
variable {o : Nat}

theorem blockAt?_of_not_moved (b : Builder) (ho : ∀ x, φ x ≠ o) :
    (b.relocate φ).blockAt? o = none := by
  simp only [blockAt?, relocate, Array.findIdx?_eq_none_iff, Array.mem_map, beq_eq_false_iff_ne]
  rintro k ⟨k', -, rfl⟩
  exact ho k'.offset

theorem enterAt_of_not_moved (hzero : φ 0 = 0) (b : Builder) (n : Node) (ho : ∀ x, φ x ≠ o) :
    ((b.relocate φ).push n).enterAt o = (b.relocate φ).push n := by
  have hcurrent : o ≠ ((b.relocate φ).push n).currentOffset := by
    change o ≠ ((b.relocate φ).blocks[b.current]?.map Block.offset).getD 0
    simp only [relocate, Array.getElem?_map]
    cases b.blocks[b.current]? with
    | none => exact fun h => ho 0 (hzero.trans h.symm)
    | some k => exact fun h => ho k.offset h.symm
  have hblock : ((b.relocate φ).push n).blockAt? o = none := blockAt?_of_not_moved b ho
  simp only [enterAt, hcurrent, if_false, hblock]

/-- The branch of a test is that of the compare-and-branch, up to the trees that it places. -/
theorem branch_parted (hφ : StrictMono φ) (h : Parted φ r s t) (b : Builder) (n n' : Node) :
    Both (fun a c => (a.relocate φ).Like c) (b.branch r n) ((b.relocate φ).branch t n') := by
  obtain ⟨r', hmoved⟩ := exists_moved hφ r
  obtain ⟨x, hr, ht⟩ := h.target
  have htarget : t.target? = r'.target? := by
    rw [hmoved.target?]
    simp only [Record.target?, hr, ht, Option.map_some]
  have hends : t.op.endsBlock = r'.op.endsBlock := by
    obtain ⟨c, hc⟩ := h.branch
    rw [hmoved.op, hc]
    rcases h.test with htest | htest <;> rw [htest] <;> rfl
  exact .of_agree (branch_relocate hφ hmoved b n)
    ((Like.refl _).branch htarget (h.stop.trans hmoved.stop.symm) hends _ n')

/-- A test takes the result of the comparison. -/
theorem step_test (hzero : φ 0 = 0) (h : Parted φ r s t) {x : Nat}
    (ht : t.operand = .ref (.target x)) (b : Builder) (n : Node) :
    ∃ n', ((b.relocate φ).push n).step t = if ((b.relocate φ).blockAt? x).isSome
      then (b.relocate φ).branch t n' else stackError t (.invalidTarget x) := by
  have henter := enterAt_of_not_moved hzero b n h.between
  have hcount : t.op.pops = .fixed 1 := by
    rcases h.test with htest | htest <;> rw [htest] <;> rfl
  have hpops : (((b.relocate φ).push n).enterAt t.offset).popMany t [] 1 =
      .ok ([n], b.relocate φ) := by
    rw [henter]
    rfl
  have hstep := step_conditional (.inr h.test) ht hcount hpops
  rwa [henter] at hstep

/-- The comparison and the test do what the compare-and-branch does, up to the trees that they
place, or the comparison refuses the operands. -/
theorem step_parted (hφ : StrictMono φ) (hzero : φ 0 = 0) (h : Parted φ r s t)
    (hstack : (b.enterAt r.offset).stackTypes = some u :: some l :: rest) :
    if comparable l u then Both (fun a c => (a.relocate φ).Like c) (b.step r)
      ((b.relocate φ).step s >>= fun c => c.step t)
    else ∃ e, (b.relocate φ).step s = .error e := by
  obtain ⟨c, hcompare⟩ := h.compare
  obtain ⟨x, hr, ht⟩ := h.target
  have henter : (b.relocate φ).enterAt s.offset = (b.enterAt r.offset).relocate φ := by
    rw [h.offset, enterAt_relocate hφ hzero]
  have hstop : ((b.relocate φ).enterAt s.offset).blockAt? s.stop = none := by
    rw [henter, h.middle, blockAt?_of_not_moved _ h.between]
  have hstack' : ((b.relocate φ).enterAt s.offset).stackTypes = some u :: some l :: rest := by
    rw [henter, stackTypes_relocate, hstack]
  have hstep := step_compare hcompare h.operand hstop hstack'
  rw [henter, dropTop_relocate, dropTop_relocate] at hstep
  split at hstep
  · rename_i hcomparable
    obtain ⟨n, hstep⟩ := hstep
    rw [if_pos hcomparable, hstep]
    -- the one branch takes the operands, the other the result of the comparison
    have hcount : r.op.pops = .fixed 2 := by
      obtain ⟨c, hc⟩ := h.branch
      rw [hc]
      rfl
    obtain ⟨v, w, hpops, -, -⟩ := popMany_of_stackTypes hstack r
    obtain ⟨m, hbranch⟩ := step_conditional (.inl h.branch) hr hcount hpops
    obtain ⟨m', htest⟩ := step_test hzero h ht (b.enterAt r.offset).dropTop.dropTop n
    rw [blockAt?_relocate hφ, blockAt?_dropTop, blockAt?_dropTop] at htest
    change Both _ _ (Builder.step _ t)
    rw [hbranch, htest]
    split
    · exact branch_parted hφ h _ m m'
    · exact .error _ _
  · rename_i hcomparable
    rw [if_neg hcomparable]
    exact hstep

end Builder

/-! ## Whole bodies -/

/-- Behind a prefix, acceptance is up to the records that follow. -/
theorem exists_buildRecords_iff {pre post : List Record} {bs : List Nat} {b : Builder}
    (hbs : boundariesOf (pre ++ post) body.instructions.length = .ok bs)
    (hreached : pre.foldlM Builder.step (Builder.start m body bs) = .ok b) :
    (∃ k, buildRecords m body (pre ++ post) = .ok k) ↔ ∃ f, post.foldlM Builder.step b = .ok f := by
  have hbuild : buildRecords m body (pre ++ post) = post.foldlM Builder.step b >>= fun f =>
      .ok f.finish := by
    rw [buildRecords, hbs]
    change List.foldlM Builder.step (Builder.start m body bs) (pre ++ post) >>= _ = _
    rw [List.foldlM_append, hreached]
    rfl
  rw [hbuild]
  cases post.foldlM Builder.step b with
  | ok f => exact ⟨fun _ => ⟨f, rfl⟩, fun _ => ⟨f.finish, rfl⟩⟩
  | error e => exact ⟨nofun, nofun⟩

section Records

variable {pre pre' post post' : List Record} {r s t : Record} (hφ : StrictMono φ) (hzero : φ 0 = 0)
  (hpre : List.Forall₂ (Record.Moved φ) pre pre') (hpost : List.Forall₂ (Record.Moved φ) post post')
  (h : Parted φ r s t)

include hφ hpre hpost h

theorem any_offset_of_parted (target : Nat) :
    (pre' ++ s :: t :: post').any (·.offset == φ target) =
      (pre ++ r :: post).any (·.offset == target) := by
  have hsame : (φ r.offset == φ target) = (r.offset == target) := by
    rw [Bool.eq_iff_iff, beq_iff_eq, beq_iff_eq, hφ.injective.eq_iff]
  have hother : (t.offset == φ target) = false := by
    rw [beq_eq_false_iff_ne]
    exact (h.between target).symm
  simp only [List.any_append, List.any_cons, any_offset_of_moved hφ hpre,
    any_offset_of_moved hφ hpost, h.offset, hsame, hother, Bool.false_or]

include hzero

/-- The comparison starts no block, and the test starts the blocks of the compare-and-branch. -/
theorem boundariesOf_parted (length : Nat) :
    Agree (List.map φ) (boundariesOf (pre ++ r :: post) length)
      (boundariesOf (pre' ++ s :: t :: post') (φ length)) := by
  have hstart : [0] = [0].map φ := by rw [List.map_cons, hzero, List.map_nil]
  have hany := any_offset_of_parted hφ hpre hpost h
  have hmoved (bs : List Nat) (q q' : Record) (hq : Record.Moved φ q q') :
      Agree (List.map φ) (addBoundaries (pre ++ r :: post) length bs q)
        (addBoundaries (pre' ++ s :: t :: post') (φ length) (bs.map φ) q') :=
    addBoundaries_relocate hφ hany hq.target? (by rw [hq.op]) hq.stop length bs
  obtain ⟨x, hr, ht⟩ := h.target
  have hbranch : t.op.isBranch = r.op.isBranch := by
    obtain ⟨c, hc⟩ := h.branch
    rw [hc]
    rcases h.test with htest | htest <;> rw [htest] <;> rfl
  have htarget : t.target? = r.target?.map φ := by
    simp only [Record.target?, hr, ht, Option.map_some]
  have hnone : s.target? = none := by
    simp only [Record.target?, h.operand]
  unfold boundariesOf
  nth_rewrite 2 [hstart]
  rw [List.foldlM_append, List.foldlM_append]
  refine (Agree.foldlM hmoved hpre [0]).bind fun bs => ?_
  rw [List.foldlM_cons, List.foldlM_cons]
  nth_rewrite 2 [addBoundaries]
  rw [hnone]
  change Agree _ _ (List.foldlM _ _ (t :: post'))
  rw [List.foldlM_cons]
  refine (addBoundaries_relocate hφ hany htarget hbranch h.stop length bs).bind fun bs => ?_
  exact Agree.foldlM hmoved hpost bs

/-- Where the compare-and-branch finds values of types `l` and `u`, the comparison and the test are
accepted in its place if it is accepted and the values can be compared. -/
theorem buildRecords_parted_iff (m : Method) {body' : Body} (hlocals : body'.locals = body.locals)
    (hlength : body'.instructions.length = φ body.instructions.length) {bs : List Nat} {b : Builder}
    {l u : StackType} {rest : List (Option StackType)}
    (hbs : boundariesOf (pre ++ r :: post) body.instructions.length = .ok bs)
    (hreached : pre.foldlM Builder.step (Builder.start m body bs) = .ok b)
    (hstack : (b.enterAt r.offset).stackTypes = some u :: some l :: rest) :
    (∃ k, buildRecords m body' (pre' ++ s :: t :: post') = .ok k) ↔
      (∃ k, buildRecords m body (pre ++ r :: post) = .ok k) ∧ comparable l u = true := by
  have hmoved (b : Builder) (q q' : Record) (hq : Record.Moved φ q q') :
      Agree (Builder.relocate φ) (b.step q) ((b.relocate φ).step q') :=
    b.step_relocate hφ hq hzero
  have hbs' := (boundariesOf_parted hφ hzero hpre hpost h _).eq_ok hbs
  have hreached' := (Agree.foldlM hmoved hpre (Builder.start m body bs)).eq_ok hreached
  rw [← start_relocate hzero m hlocals hlength] at hreached'
  rw [← hlength] at hbs'
  rw [exists_buildRecords_iff hbs hreached, exists_buildRecords_iff hbs' hreached',
    List.foldlM_cons, List.foldlM_cons]
  have hsteps := Builder.step_parted hφ hzero h hstack
  split at hsteps
  · rename_i hcomparable
    have hrest := hsteps.bind fun a c hlike =>
      Both.of_agree (Agree.foldlM hmoved hpost a) (Builder.Like.run hlike post')
    rw [bind_assoc] at hrest
    rw [and_iff_left hcomparable]
    exact hrest.exists_ok_iff.symm
  · rename_i hcomparable
    obtain ⟨e, he⟩ := hsteps
    rw [he]
    constructor
    · rintro ⟨k, ⟨⟩⟩
    · rintro ⟨-, hc⟩
      exact absurd hc hcomparable

end Records

/-! ## Instructions -/

/-- The number of an instruction where one more stands behind number `k`. -/
def skip (k n : Nat) : Nat := if n ≤ k then n else n + 1

theorem skip_zero (k : Nat) : skip k 0 = 0 := rfl

theorem skip_of_le (h : n ≤ k) : skip k n = n := if_pos h

theorem skip_of_lt (h : k < n) : skip k n = n + 1 := if_neg (Nat.not_le.mpr h)

theorem skip_strictMono (k : Nat) : StrictMono (skip k) := by
  intro n n' hn
  unfold skip
  split <;> split <;> omega

theorem skip_ne (k n : Nat) : skip k n ≠ k + 1 := by
  unfold skip
  split <;> omega

/-- The instructions around a compare-and-branch with a comparison and a test of its result in its
place. All branches go where they went. -/
def takenApart (c : Compare) (test : Op) (pre : List Instruction) (target : Nat)
    (post : List Instruction) : List Instruction :=
  pre.map (·.relocate (skip pre.length)) ++ ⟨some (.compare c), .none⟩ ::
    ⟨some test, .target (skip pre.length target)⟩ :: post.map (·.relocate (skip pre.length))

theorem openAll_cons_of_ne_dup (h : r.op ≠ .dup) (t : Nat) (rs : List Record) :
    openAll t (r :: rs) = r :: openAll t rs := by
  simp [openAll, Record.opened, Record.nextTemporary, h]

theorem nextTemporaryAll_cons_of_ne_dup (h : r.op ≠ .dup) (t : Nat) (rs : List Record) :
    nextTemporaryAll t (r :: rs) = nextTemporaryAll t rs := by
  simp [nextTemporaryAll, Record.nextTemporary, h]

theorem length_numberedBody (is : List Instruction) (locals : List Ty) :
    (numberedBody is locals).instructions.length = is.length := by
  simp [numberedBody, Body.instructions]

section Numbered

variable {m : Method} {resolver : Resolver} {locals : List Ty} {pre post : List Instruction}
  {c : BranchCompare} {c' : Compare} {test : Op} {target : Nat}
variable {rs : List Record}

theorem length_takenApart : (takenApart c' test pre target post).length =
    skip pre.length (pre ++ ⟨some (.branchCompare c), .target target⟩ :: post).length := by
  rw [skip_of_lt (by simp)]
  simp only [takenApart, List.length_append, List.length_map, List.length_cons]
  omega

variable (c' test) in
theorem scope_takenApart :
    Scope.of m (numberedBody (takenApart c' test pre target post) locals) resolver =
      (Scope.of m (numberedBody (pre ++ ⟨some (.branchCompare c), .target target⟩ :: post) locals)
        resolver).relocate (skip pre.length) := by
  simp only [Scope.of, Scope.relocate, length_numberedBody, length_takenApart (c := c)]
  rfl

variable (c') in
/-- The records of instructions around a compare-and-branch, and of the instructions with the
compare-and-branch taken apart. -/
theorem records?_takenApart (htest : test = .brtrue ∨ test = .brfalse) {s : Scope}
    (h : records? s 0 (pre ++ ⟨some (.branchCompare c), .target target⟩ :: post) = some rs) :
    ∃ before before' r q q' after after', rs = before ++ r :: after ∧
      records? (s.relocate (skip pre.length)) 0 (takenApart c' test pre target post) =
        some (before' ++ q :: q' :: after') ∧
      List.Forall₂ (Record.Moved (skip pre.length)) before before' ∧
      List.Forall₂ (Record.Moved (skip pre.length)) after after' ∧
      Parted (skip pre.length) r q q' ∧ r.offset = pre.length ∧
      ∀ p ∈ before, p.offset < pre.length := by
  have hφ := skip_strictMono pre.length
  obtain ⟨before, tail, hbefore, htail, rfl⟩ := records?_append.mp h
  obtain ⟨r, after, hr, hafter, rfl⟩ := records?_cons.mp htail
  rw [Nat.zero_add] at hr hafter
  have hfirst (j : Nat) (hj : j ≤ pre.length) : skip pre.length (0 + j) = 0 + j :=
    skip_of_le (by omega)
  have hlast (j : Nat) (_ : j ≤ post.length) :
      skip pre.length (pre.length + 1 + j) = pre.length + 1 + 1 + j := by
    rw [skip_of_lt (by omega)]
    omega
  obtain ⟨before', hbefore', hmoved⟩ := records?_relocate hφ hfirst hbefore
  obtain ⟨after', hafter', hmoved'⟩ := records?_relocate hφ hlast hafter
  obtain ⟨op, x, hop, hx, rfl⟩ := Instruction.record?_eq_some.mp hr
  cases hop
  replace hx : s.target? target = some x := hx
  have htarget := s.target?_relocate hφ target
  rw [hx, Option.map_some] at htarget
  obtain rfl : Operand.ref (.target target) = x := by
    unfold Scope.target? at hx
    split at hx
    · simpa using hx
    · cases hx
  refine ⟨before, before', _, ⟨.compare c', .none, pre.length, 1, ""⟩,
    ⟨test, .ref (.target (skip pre.length target)), pre.length + 1, 1, ""⟩, after, after', rfl, ?_,
    hmoved, hmoved', ?_, rfl, ?_⟩
  · refine records?_append.mpr ⟨before', _, hbefore', ?_, rfl⟩
    rw [List.length_map, Nat.zero_add]
    refine records?_cons.mpr ⟨_, _, rfl, ?_, rfl⟩
    refine records?_cons.mpr ⟨_, after', ?_, hafter', rfl⟩
    exact Instruction.record?_eq_some.mpr ⟨test, _, rfl, htarget, rfl⟩
  · exact ⟨⟨c, rfl⟩, ⟨c', rfl⟩, htest, rfl, ⟨target, rfl, rfl⟩, (skip_of_le le_rfl).symm, rfl,
      (skip_of_lt (Nat.lt_succ_self _)).symm, skip_ne pre.length⟩
  · simpa using offset_lt_of_records? hbefore

variable (c') in
/-- The same with duplications opened. -/
theorem numberedRecords?_takenApart (htest : test = .brtrue ∨ test = .brfalse) (h : numberedRecords?
      m (pre ++ ⟨some (.branchCompare c), .target target⟩ :: post) locals resolver = some rs) :
    ∃ before before' r q q' after after', rs = before ++ r :: after ∧
      numberedRecords? m (takenApart c' test pre target post) locals resolver =
        some (before' ++ q :: q' :: after') ∧
      List.Forall₂ (Record.Moved (skip pre.length)) before before' ∧
      List.Forall₂ (Record.Moved (skip pre.length)) after after' ∧
      Parted (skip pre.length) r q q' ∧ r.offset = pre.length ∧
      ∀ p ∈ before, p.offset < pre.length := by
  obtain ⟨read, hread, hrs⟩ := Option.bind_eq_some_iff.mp h
  obtain ⟨hlimit, hrs⟩ := Option.ite_none_right_eq_some.mp hrs
  cases hrs
  obtain ⟨before, before', r, q, q', after, after', rfl, hread', hmoved, hmoved', hparted, hoffset,
    hless⟩ := records?_takenApart c' htest hread
  have hr : r.op ≠ .dup := by
    obtain ⟨c, hc⟩ := hparted.branch
    simp [hc]
  have hq : q.op ≠ .dup := by
    obtain ⟨c, hc⟩ := hparted.compare
    simp [hc]
  have hq' : q'.op ≠ .dup := by
    rcases hparted.test with ht | ht <;> simp [ht]
  rw [nextTemporaryAll_append, nextTemporaryAll_cons_of_ne_dup hr] at hlimit
  rw [← scope_takenApart c' test] at hread'
  refine ⟨openAll 0 before, openAll 0 before', r, q, q', openAll (nextTemporaryAll 0 before) after,
    openAll (nextTemporaryAll 0 before) after', ?_, ?_, openAll_moved hmoved 0,
    openAll_moved hmoved' _, hparted, hoffset, ?_⟩
  · rw [openAll_append, openAll_cons_of_ne_dup hr]
  · have hlimit' : nextTemporaryAll 0 (before' ++ q :: q' :: after') ≤ Reader.temporaryLimit := by
      rwa [nextTemporaryAll_append, nextTemporaryAll_cons_of_ne_dup hq,
        nextTemporaryAll_cons_of_ne_dup hq', nextTemporaryAll_moved hmoved,
        nextTemporaryAll_moved hmoved']
    simp only [numberedRecords?, hread', Option.bind_eq_bind, Option.bind_some, hlimit', if_true,
      openAll_append, openAll_cons_of_ne_dup hq, openAll_cons_of_ne_dup hq',
      nextTemporaryAll_moved hmoved]
  · intro p hp
    obtain ⟨p', hp', ho⟩ := exists_offset_openAll_iff.mp ⟨p, hp, rfl⟩
    rw [← ho]
    exact hless p' hp'

end Numbered

/-! ## Encodings -/

/-- The builder where it comes to the instruction at an offset. -/
def reach (m : Method) (body : Body) (resolver : Resolver) (o : Nat) :
    Except BuildError Builder := do
  let records ← readRecords m body resolver
  let boundaries ← boundariesOf records body.instructions.length
  let b ← (records.takeWhile (·.offset < o)).foldlM Builder.step (Builder.start m body boundaries)
  return b.enterAt o

/-- The types of the two topmost values before the instruction at an offset, the topmost last. -/
def topTypes? (m : Method) (body : Body) (resolver : Resolver) (o : Nat) :
    Option (StackType × StackType) :=
  match reach m body resolver o with
  | .ok b =>
    match b.stackTypes with
    | some r :: some l :: _ => some (l, r)
    | _ => none
  | .error _ => none

theorem topTypes?_eq_some {resolver : Resolver} {o : Nat} {l r : StackType}
    (h : topTypes? m body resolver o = some (l, r)) :
    ∃ records boundaries b rest, readRecords m body resolver = .ok records ∧
      boundariesOf records body.instructions.length = .ok boundaries ∧
      (records.takeWhile (·.offset < o)).foldlM Builder.step (Builder.start m body boundaries) =
        .ok b ∧
      (b.enterAt o).stackTypes = some r :: some l :: rest := by
  unfold topTypes? at h
  split at h
  · rename_i hreach
    obtain ⟨records, hread, hreach⟩ := bind_eq_ok.mp hreach
    obtain ⟨boundaries, hbs, hreach⟩ := bind_eq_ok.mp hreach
    obtain ⟨b, hrun, hreach⟩ := bind_eq_ok.mp hreach
    cases hreach
    split at h
    · rename_i rest hstack
      cases h
      exact ⟨records, boundaries, b, rest, hread, hbs, hrun, hstack⟩
    · cases h
  · cases h

theorem takeWhile_moved (hφ : StrictMono φ) {rs rs' : List Record}
    (h : List.Forall₂ (Record.Moved φ) rs rs') (o : Nat) :
    List.Forall₂ (Record.Moved φ) (rs.takeWhile (·.offset < o)) (rs'.takeWhile (·.offset < φ o)) := by
  induction h with
  | nil => exact .nil
  | @cons r r' _ _ hr _ ih =>
    simp only [List.takeWhile_cons, hr.offset, hφ.lt_iff_lt]
    split
    · exact .cons hr ih
    · exact .nil

section Encodings

variable {m : Method} {resolver : Resolver} {b : Body} {is : List Instruction} {fs : List Form}

/-- The numbered instructions leave on the stack what their encoding leaves there. -/
theorem numbered_topTypes? (h : Encodes fs is b.instructions) {l r : StackType}
    (htypes : topTypes? m b resolver (startOf fs k) = some (l, r)) :
    ∃ rs bs c rest, numberedRecords? m is b.locals resolver = some rs ∧
      boundariesOf rs (numberedBody is b.locals).instructions.length = .ok bs ∧
      (rs.takeWhile (·.offset < k)).foldlM Builder.step
        (Builder.start m (numberedBody is b.locals) bs) = .ok c ∧
      (c.enterAt k).stackTypes = some r :: some l :: rest := by
  obtain ⟨records, boundaries, c', rest, hread, hbs, hrun, hstack⟩ := topTypes?_eq_some htypes
  have hφ := startOf_strictMono fs
  have hzero := startOf_zero fs
  obtain ⟨rs, hrs⟩ := exists_numberedRecords? h hread
  obtain ⟨rs', hread', hmoved⟩ := readRecords_of_numbered h hrs
  obtain rfl : rs' = records := by simpa [hread'] using hread
  rw [length_of_encodes h] at hbs
  obtain ⟨bs, hbs', rfl⟩ := (boundariesOf_relocate hφ hzero hmoved _).exists_eq_ok hbs
  have hlocals : b.locals = (numberedBody is b.locals).locals := rfl
  rw [start_relocate hzero m hlocals (length_of_encodes h)] at hrun
  obtain ⟨c, hrun', rfl⟩ := (Agree.foldlM (fun c q q' hq => c.step_relocate hφ hq hzero)
    (takeWhile_moved hφ hmoved k) _).exists_eq_ok hrun
  rw [Builder.enterAt_relocate hφ hzero, Builder.stackTypes_relocate] at hstack
  exact ⟨rs, bs, c, rest, hrs, hbs', hrun', hstack⟩

theorem exists_build_iff (h : Encodes fs is b.instructions) {rs : List Record}
    (hrs : numberedRecords? m is b.locals resolver = some rs) :
    (∃ s, build m b resolver = .ok s) ↔
      ∃ s, buildRecords m (numberedBody is b.locals) rs = .ok s := by
  have hbuild := toOption_build m resolver h
  rw [buildNumbered?, hrs] at hbuild
  simp only [← toOption_eq_some, hbuild, Option.bind_eq_bind, Option.bind_some]
  cases (buildRecords m (numberedBody is b.locals) rs).toOption <;> simp

end Encodings

/-- A compare-and-branch is accepted whatever the types of its operands are. Where `l` and `r` are
the types of the values that it finds, the code with a comparison and a test of its result in its
place is accepted if and only if the code with the compare-and-branch is accepted and `l` and `r`
can be compared. -/
theorem branchCompare_accepted_iff (m : Method) (resolver : Resolver) {b b' : Body}
    {pre post : List Instruction} {c : BranchCompare} {c' : Compare} {test : Op} {target : Nat}
    {fs fs' : List Form} {l r : StackType} (hlocals : b'.locals = b.locals)
    (htest : test = .brtrue ∨ test = .brfalse)
    (hb : Encodes fs (pre ++ ⟨some (.branchCompare c), .target target⟩ :: post) b.instructions)
    (hb' : Encodes fs' (takenApart c' test pre target post) b'.instructions)
    (htypes : topTypes? m b resolver (startOf fs pre.length) = some (l, r)) :
    (∃ s, build m b' resolver = .ok s) ↔
      (∃ s, build m b resolver = .ok s) ∧ comparable l r = true := by
  obtain ⟨rs, bs, d, rest, hrs, hbs, hrun, hstack⟩ := numbered_topTypes? hb htypes
  obtain ⟨before, before', q, s, t, after, after', rfl, hrs', hmoved, hmoved', hparted, hoffset,
    hless⟩ := numberedRecords?_takenApart c' htest hrs
  rw [exists_build_iff hb hrs, exists_build_iff hb' (hlocals ▸ hrs')]
  have hearlier : (before ++ q :: after).takeWhile (·.offset < pre.length) = before := by
    rw [List.takeWhile_append_of_pos (by simpa using hless)]
    simp [hoffset]
  rw [hearlier] at hrun
  rw [← hoffset] at hstack
  have hlocals' : (numberedBody (takenApart c' test pre target post) b'.locals).locals =
      (numberedBody (pre ++ ⟨some (.branchCompare c), .target target⟩ :: post) b.locals).locals :=
    hlocals
  refine buildRecords_parted_iff (skip_strictMono _) (skip_zero _) hmoved hmoved' hparted m hlocals'
    ?_ hbs hrun hstack
  rw [length_numberedBody, length_numberedBody, length_takenApart]

/-- Compares a constant that a branch has carried over with an argument. -/
def clamp : Method := { name := "clamp", parameters := [.i], returnType := .void }

def clampStart : List Instruction :=
  [⟨some (.ldc .i4), .int32 5⟩, ⟨some .ldarg, .index 0⟩, ⟨some .brtrue, .target 4⟩, ⟨some .nop, .none⟩,
    ⟨some .ldarg, .index 0⟩]

def clampEnd : List Instruction := [⟨some .nop, .none⟩, ⟨some .ret, .none⟩]

def clampStartForms : List Form :=
  [⟨.fixed "ldc.i4.5" 0x1B (.ldc .i4) (.int 5), []⟩, ⟨.fixed "ldarg.0" 0x02 .ldarg (.index 0), []⟩,
    ⟨.general "brtrue.s" 0x2D .shortTarget .brtrue, [1]⟩, ⟨.general "nop" 0x00 .none .nop, []⟩,
    ⟨.fixed "ldarg.0" 0x02 .ldarg (.index 0), []⟩]

def clampEndForms : List Form :=
  [⟨.general "nop" 0x00 .none .nop, []⟩, ⟨.general "ret" 0x2A .none .ret, []⟩]

def clampBranchForms : List Form :=
  clampStartForms ++ ⟨.general "blt.s" 0x32 .shortTarget (.branchCompare .lt), [1]⟩ :: clampEndForms

def clampTestForms : List Form :=
  clampStartForms ++ ⟨.general "clt" 0xFE04 .none (.compare .lt), []⟩ ::
    ⟨.general "brtrue.s" 0x2D .shortTarget .brtrue, [1]⟩ :: clampEndForms

def clampBranch : Body := { code := [0x1B, 0x02, 0x2D, 1, 0x00, 0x02, 0x32, 1, 0x00, 0x2A] }

def clampTest : Body := { code := [0x1B, 0x02, 0x2D, 1, 0x00, 0x02, 0xFE, 0x04, 0x2D, 1, 0x00, 0x2A] }

/-- A word that a branch has carried over is compared with a native integer. -/
theorem clamp_accepted :
    topTypes? clamp clampBranch ({} : TokenTable).resolver
        (startOf clampBranchForms clampStart.length) = some (.int32, .nativeInt) ∧
      (∃ s, build clamp clampBranch ({} : TokenTable).resolver = .ok s) ∧
      ∃ s, build clamp clampTest ({} : TokenTable).resolver = .ok s := by
  have hbranch : Encodes clampBranchForms
      (clampStart ++ ⟨some (.branchCompare .lt), .target 7⟩ :: clampEnd) clampBranch.instructions := by
    decide +kernel
  have htest : Encodes clampTestForms (takenApart .lt .brtrue clampStart 7 clampEnd)
      clampTest.instructions := by
    decide +kernel
  have htypes : topTypes? clamp clampBranch ({} : TokenTable).resolver
      (startOf clampBranchForms clampStart.length) = some (.int32, .nativeInt) := by
    decide +kernel
  have hbuilt : ∃ s, build clamp clampBranch ({} : TokenTable).resolver = .ok s :=
    exists_of_isOk (by decide +kernel)
  have hlocals : clampTest.locals = clampBranch.locals := rfl
  exact ⟨htypes, hbuilt, (branchCompare_accepted_iff clamp ({} : TokenTable).resolver hlocals
    (.inl rfl) hbranch htest htypes).mpr ⟨hbuilt, rfl⟩⟩

def halt : Method := { name := "halt", parameters := [], returnType := .void }

def mixedBranch : Body :=
  { code := [0x17, 0x23, 0, 0, 0, 0, 0, 0, 0xF0, 0x3F, 0x2E, 0, 0x2A] }

def mixedComparison : Body :=
  { code := [0x17, 0x23, 0, 0, 0, 0, 0, 0, 0xF0, 0x3F, 0xFE, 0x01, 0x2D, 0, 0x2A] }

/-- No comparison takes a word and a float, and the tree form of a method may have a branch on such
operands. -/
theorem mixedBranch_accepted :
    topTypes? halt mixedBranch ({} : TokenTable).resolver 10 = some (.int32, .float64) ∧
      comparable .int32 .float64 = false ∧
      (build halt mixedBranch ({} : TokenTable).resolver).toOption.map (fun s =>
          (s.blocks.toList.flatMap (·.roots.toList)).map fun n => (n.op, n.children.map Node.type)) =
        some [(.branchCompare .eq, [.int32, .float64]), (.ret, [])] ∧
      (build halt mixedComparison ({} : TokenTable).resolver).isOk = false := by
  decide +kernel

end SpuCompiler.Trees
