import SpuCompiler.Proofs.Program.Runs
import SpuCompiler.Proofs.Trees.Roots
import SpuCompiler.Proofs.Trees.Translation

/-!
Control flow of a placed program. The code of a routine is a row of blocks: the prologue, one for
each block of its trees, and the epilogue. The code of a tree that jumps ends with the one branch
to the code of its target, that of a tree that returns with a branch to the epilogue, and that of
any other tree runs on to what stands behind it. All other branches of the trees are calls.
-/

namespace SpuCompiler

open Machine Metadata Bytecode Trees Objects Selection

variable {js code : List Instr} {image : Image} {ms : List Method} {address : Nat}
  {ns : List Node} {epilogue : ObjectId} {α β : Type}

/-! ## What the code of trees does -/

def branchesFrom (address : Nat) : List Instr → List (Nat × Instr)
  | [] => []
  | i :: is =>
    if i.opcode.isBranch then (address, i) :: branchesFrom (address + 4) is
    else branchesFrom (address + 4) is

theorem branchesFrom_append (address : Nat) (code rest : List Instr) :
    branchesFrom address (code ++ rest) =
      branchesFrom address code ++ branchesFrom (address + 4 * code.length) rest := by
  induction code generalizing address with
  | nil => rfl
  | cons i is ih =>
    have hnext : address + 4 * (i :: is).length = address + 4 + 4 * is.length := by
      rw [List.length_cons]
      omega
    rw [List.cons_append, branchesFrom, branchesFrom, ih, hnext]
    split <;> simp

theorem branchesFrom_eq_nil (address : Nat) (h : ∀ i ∈ code, i.opcode.isBranch = false) :
    branchesFrom address code = [] := by
  induction code generalizing address with
  | nil => rfl
  | cons i is ih =>
    rw [branchesFrom, h i (by simp), ih _ fun j hj => h j (by simp [hj])]
    rfl

theorem exists_branchesFrom (address : Nat) {i : Instr} (hi : i ∈ code)
    (hbranch : i.opcode.isBranch = true) : ∃ x, (x, i) ∈ branchesFrom address code := by
  induction code generalizing address with
  | nil => cases hi
  | cons j js ih =>
    rw [branchesFrom]
    rcases List.mem_cons.mp hi with rfl | hi
    · exact ⟨address, by simp [hbranch]⟩
    · obtain ⟨x, hx⟩ := ih (address + 4) hi
      refine ⟨x, ?_⟩
      split
      · exact List.mem_cons_of_mem _ hx
      · exact hx

/-- The branches of the code are calls of methods, in this order. -/
def Calls (image : Image) (ms : List Method) (address : Nat) (code : List Instr) : Prop :=
  List.Forall₂ (fun (m : Method) (b : Nat × Instr) => b.2.opcode = .brsl ∧
    ∃ x ∈ image.objects, x.name = m.symbol ∧ Reaches b.2 b.1 x.offset) ms (branchesFrom address code)

theorem Calls.append {ms' : List Method} {rest : List Instr} (h : Calls image ms address code)
    (h' : Calls image ms' (address + 4 * code.length) rest) :
    Calls image (ms ++ ms') address (code ++ rest) := by
  unfold Calls
  rw [branchesFrom_append]
  exact List.rel_append h h'

theorem Calls.nil (h : ∀ i ∈ code, i.opcode.isBranch = false) : Calls image [] address code := by
  unfold Calls
  rw [branchesFrom_eq_nil address h]
  exact .nil

theorem Calls.brsl (h : Calls image ms address code) :
    ∀ i ∈ code, i.opcode.isBranch = true → i.opcode = .brsl := by
  intro i hi hbranch
  obtain ⟨x, hx⟩ := exists_branchesFrom address hi hbranch
  obtain ⟨k, hk, hget⟩ := List.mem_iff_getElem.mp hx
  have hcall := (List.forall₂_iff_get.mp h).2 k (h.length_eq ▸ hk) hk
  simp only [List.get_eq_getElem, hget] at hcall
  exact hcall.1

structure Parts where
  prologue : PlacedObject
  blocks : List PlacedObject
  epilogue : PlacedObject

def Parts.row (parts : Parts) : List PlacedObject := parts.prologue :: parts.blocks ++ [parts.epilogue]

/-- What the code of a tree does, besides calls: it ends with a branch to the block that the tree
jumps to, or to the epilogue, or has no branch of its own. -/
inductive TreeFlow (image : Image) (parts : Parts) (n : Node) (address : Nat) : List Instr → Prop
  | jump {pre : List Instr} {i : Instr} {b : Nat} {x : PlacedObject} : n.op.isBranch = true →
      n.blockId? = some b → parts.blocks[b]? = some x →
      Calls image (n.postorder.filterMap calledRoutine?) address pre →
      (i.opcode = .br ∨ i.opcode = .brz ∨ i.opcode = .brnz) →
      Reaches i (address + 4 * pre.length) x.offset → TreeFlow image parts n address (pre ++ [i])
  | ret {pre : List Instr} {i : Instr} : n.op = .ret →
      Calls image (n.postorder.filterMap calledRoutine?) address pre → i.opcode = .br →
      Reaches i (address + 4 * pre.length) parts.epilogue.offset →
      TreeFlow image parts n address (pre ++ [i])
  | runsOn {code : List Instr} : n.Passes →
      Calls image (n.postorder.filterMap calledRoutine?) address code →
      TreeFlow image parts n address code

inductive TreesFlow (image : Image) (parts : Parts) : Nat → List Node → List Instr → Prop
  | nil (address : Nat) : TreesFlow image parts address [] []
  | cons {address : Nat} {n : Node} {ns : List Node} {code rest : List Instr} :
      TreeFlow image parts n address code →
      TreesFlow image parts (address + 4 * code.length) ns rest →
      TreesFlow image parts address (n :: ns) (code ++ rest)

variable {parts : Parts}

theorem TreesFlow.split {ns' : List Node} (h : TreesFlow image parts address (ns ++ ns') code) :
    ∃ pre post, code = pre ++ post ∧ TreesFlow image parts address ns pre ∧
      TreesFlow image parts (address + 4 * pre.length) ns' post := by
  induction ns generalizing address code with
  | nil => exact ⟨[], code, rfl, .nil address, h⟩
  | cons n ns ih =>
    cases h with
    | cons hn hrest =>
      obtain ⟨pre, post, rfl, hpre, hpost⟩ := ih hrest
      refine ⟨_ ++ pre, post, (List.append_assoc ..).symm, .cons hn hpre, ?_⟩
      rwa [List.length_append, Nat.mul_add, ← Nat.add_assoc]

/-- The code behind the last tree, which neither jumps nor returns, is reached through calls. -/
theorem TreesFlow.runsOn (h : TreesFlow image parts address ns code)
    (hlast : ∀ n, ns.getLast? = some n → n.Passes) :
    ∃ pre post, code = pre ++ post ∧ TreesFlow image parts address ns.dropLast pre ∧
      ∀ i ∈ post, i.opcode.isBranch = true → i.opcode = .brsl := by
  rcases List.eq_nil_or_concat ns with rfl | ⟨ns, n, rfl⟩
  · cases h
    exact ⟨[], [], rfl, .nil address, by simp⟩
  · rw [List.concat_eq_append] at h hlast ⊢
    obtain ⟨pre, post, rfl, hpre, hpost⟩ := h.split
    rw [List.dropLast_concat]
    refine ⟨pre, post, rfl, hpre, ?_⟩
    obtain ⟨hbranch, hret⟩ := hlast n (by simp)
    cases hpost with
    | cons hn hnil =>
      cases hnil
      rw [List.append_nil]
      cases hn with
      | jump hjump => simp [hjump] at hbranch
      | ret hop => exact absurd hop hret
      | runsOn _ hcalls => exact hcalls.brsl

/-! ## From selected code to placed code -/

/-- Selected code and what becomes of it at an address, with the blocks of its jumps named. -/
inductive PlacedAs (image : Image) (body : Array ObjectId) (epilogue : ObjectId) :
    Nat → List Instr → List Instr → Prop
  | nil (address : Nat) : PlacedAs image body epilogue address [] []
  | cons {address : Nat} {i j : Instr} {is js : List Instr} :
      image.Patches (some epilogue) address (resolveTarget body i) j →
      PlacedAs image body epilogue (address + 4) is js →
      PlacedAs image body epilogue address (i :: is) (j :: js)

namespace PlacedAs

variable {image : Image} {body : Array ObjectId} {epilogue : ObjectId} {address : Nat}
  {is is' js : List Instr}

theorem length_eq (h : PlacedAs image body epilogue address is js) : js.length = is.length := by
  induction h with
  | nil => rfl
  | cons _ _ ih => rw [List.length_cons, List.length_cons, ih]

theorem split (h : PlacedAs image body epilogue address (is ++ is') js) :
    ∃ pre post, js = pre ++ post ∧ PlacedAs image body epilogue address is pre ∧
      PlacedAs image body epilogue (address + 4 * pre.length) is' post := by
  induction is generalizing address js with
  | nil => exact ⟨[], js, rfl, .nil address, h⟩
  | cons i is ih =>
    cases h with
    | @cons _ _ j _ js hj hrest =>
      obtain ⟨pre, post, rfl, hpre, hpost⟩ := ih hrest
      refine ⟨j :: pre, post, rfl, .cons hj hpre, ?_⟩
      rwa [List.length_cons, Nat.mul_add, Nat.add_comm (4 * pre.length), ← Nat.add_assoc]

theorem split_last {i : Instr} (h : PlacedAs image body epilogue address (is ++ [i]) js) :
    ∃ pre j, js = pre ++ [j] ∧ PlacedAs image body epilogue address is pre ∧
      image.Patches (some epilogue) (address + 4 * pre.length) (resolveTarget body i) j := by
  obtain ⟨pre, post, rfl, hpre, hpost⟩ := h.split
  cases hpost with
  | cons hj hnil =>
    cases hnil
    exact ⟨pre, _, rfl, hpre, hj⟩

/-- The instructions are placed one by one. -/
theorem of_getElem? {start : Nat} (hlength : js.length = is.length)
    (h : ∀ (k : Nat) i j, is[k]? = some i → js[k]? = some j →
      image.Patches (some epilogue) (start + 4 * k) (resolveTarget body i) j) :
    PlacedAs image body epilogue start is js := by
  induction is generalizing start js with
  | nil =>
    obtain rfl := List.length_eq_zero_iff.mp hlength
    exact .nil start
  | cons i is ih =>
    cases js with
    | nil => simp at hlength
    | cons j js =>
      refine .cons (h 0 i j rfl rfl) (ih (by simpa using hlength) ?_)
      intro k i' j' hi hj
      have := h (k + 1) i' j' hi hj
      rwa [Nat.mul_add, Nat.add_comm (4 * k), ← Nat.add_assoc] at this

end PlacedAs

theorem opcode_resolveTarget (body : Array ObjectId) (i : Instr) :
    (resolveTarget body i).opcode = i.opcode := by
  unfold resolveTarget
  split
  · split <;> rfl
  · rfl

section

variable {image : Image} {body : Array ObjectId} {epilogue : ObjectId} {address : Nat}
variable {j : Instr}

theorem opcode_of_patches {i : Instr} (hret : i.opcode ≠ .ret)
    (h : image.Patches (some epilogue) address (resolveTarget body i) j) : j.opcode = i.opcode := by
  have hj := h.fields (by rwa [opcode_resolveTarget])
  rw [hj]
  exact opcode_resolveTarget body i

theorem PlacedAs.plain {fits : Prop} {names : ObjectId → Prop} {is : List Instr}
    (h : PlacedAs image body epilogue address is js) (hplain : ∀ i ∈ is, Plain fits names i) :
    ∀ j ∈ js, j.opcode.isBranch = false := by
  induction h with
  | nil =>
    intro j hj
    cases hj
  | @cons _ i j is js hj _ ih =>
    have hi := (hplain i (by simp)).1
    intro k hk
    rcases List.mem_cons.mp hk with rfl | hk
    · rw [opcode_of_patches (by rintro h; simp [h, Machine.Opcode.isBranch] at hi) hj]
      exact hi
    · exact ih (fun i' hi' => hplain i' (by simp [hi'])) k hk

/-- A jump to a block has the distance to the object of the block. -/
theorem jump_of_patches {op : Machine.Opcode} {condition : Option Register} {b : Nat}
    (hop : op = .br ∨ op = .brz ∨ op = .brnz) (h : image.Patches (some epilogue) address
      (resolveTarget body (.withTarget op condition (.block b))) j) :
    j.opcode = op ∧ ∃ id x, body[b]? = some id ∧ image.offset? id = some x ∧
      Reaches j address x := by
  have hret : op ≠ .ret := by rcases hop with rfl | rfl | rfl <;> decide
  have hkind : op.patchKind = some .relativeWord := by rcases hop with rfl | rfl | rfl <;> rfl
  refine ⟨opcode_of_patches hret h, ?_⟩
  cases hb : body[b]? with
  | none =>
    -- the target would still be a block
    have hsame : resolveTarget body (.withTarget op condition (.block b)) =
        .withTarget op condition (.block b) := by
      simp [resolveTarget, Instr.withTarget, hb]
    rw [hsame] at h
    have hfields := h.fields hret
    have htarget : j.target = some (.block b) := by
      rw [hfields]
      rfl
    exact absurd htarget (h.resolved.2 b)
  | some id =>
    have hobject : resolveTarget body (.withTarget op condition (.block b)) =
        .withTarget op condition (.object id) := by
      simp [resolveTarget, Instr.withTarget, hb]
    rw [hobject] at h
    obtain ⟨x, hx, hreaches⟩ := h.relative id rfl hkind
    exact ⟨id, x, rfl, hx, hreaches⟩

theorem ret_of_patches
    (h : image.Patches (some epilogue) address (resolveTarget body { opcode := .ret }) j) :
    j.opcode = .br ∧ ∃ x, image.offset? epilogue = some x ∧ Reaches j address x := by
  obtain ⟨e, x, he, hx, hj, hreaches⟩ := h.returns rfl
  obtain rfl := Option.some.inj he
  refine ⟨?_, x, hx, hreaches⟩
  rw [hj]
  rfl

theorem call_of_patches {id : ObjectId} (h : image.Patches (some epilogue) address (resolveTarget
      body (.withTarget .brsl (some .lr) (.object id))) j) :
    j.opcode = .brsl ∧ ∃ x, image.offset? id = some x ∧ Reaches j address x :=
  ⟨opcode_of_patches (show Machine.Opcode.brsl ≠ .ret by decide) h, h.relative id rfl rfl⟩

end

theorem exists_of_offset? {id x : Nat} (h : image.offset? id = some x) :
    ∃ y, image.objects[id]? = some y ∧ y.offset = x := Option.map_eq_some_iff.mp h

structure RoutinePlaced (image : Image) (a : Arena) (body : Array ObjectId) (epilogue : ObjectId)
    (parts : Parts) : Prop where
  names : ∀ id o, a.get? id = some o → ∃ y, image.objects[id]? = some y ∧ y.name = o.name
  blocks : ∀ b id : Nat, body[b]? = some id → parts.blocks[b]? = image.objects[id]?
  epilogue : image.objects[epilogue]? = some parts.epilogue

section

variable {image : Image} {a : Arena} {body : Array ObjectId} {epilogue : ObjectId} {parts : Parts}
  {fits : Prop} {address : Nat} {code js : List Instr}
variable {n : Node}

theorem calledRoutine?_of_static (h : Code.IsStaticAccess n) : calledRoutine? n = none := by
  rcases h with h | h | h <;> simp [calledRoutine?, h]

theorem passes_of_static (h : Code.IsStaticAccess n) : n.Passes := by
  rcases h with h | h | h <;> exact ⟨by rw [h]; rfl, by rw [h]; nofun⟩

theorem RoutinePlaced.calls (h : RoutinePlaced image a body epilogue parts)
    (hn : NodeCode fits a n code) (hpasses : n.Passes)
    (hjs : PlacedAs image body epilogue address code js) :
    Calls image (calledRoutine? n).toList address js := by
  cases hn with
  | straight _ _ hcall _ hplain =>
    rw [hcall]
    exact .nil (hjs.plain hplain)
  | access hstatic _ _ hcode =>
    rw [calledRoutine?_of_static (isStaticAccess_of_staticField? hstatic)]
    exact .nil (hjs.plain hcode.plain)
  | jump hjump => exact absurd (hpasses.1.symm.trans hjump) nofun
  | ret hret => exact absurd hret hpasses.2
  | @call pre post m id o hcall ho hname hpre hpost =>
    obtain ⟨js₁, js₂, rfl, hjs₁, hjs₂⟩ := hjs.split
    cases hjs₂ with
    | @cons _ _ j _ js₃ hj hjs₃ =>
      obtain ⟨hop, x, hx, hreaches⟩ := call_of_patches hj
      obtain ⟨y, hy, rfl⟩ := exists_of_offset? hx
      obtain ⟨y', hy', hname'⟩ := h.names id o ho
      obtain rfl : y = y' := Option.some.inj (hy.symm.trans hy')
      have hbranch : j.opcode.isBranch = true := by rw [hop]; rfl
      have hcalls : Calls image [m] (address + 4 * js₁.length) (j :: js₃) := by
        unfold Calls
        rw [branchesFrom, if_pos hbranch, branchesFrom_eq_nil _ (hjs₃.plain hpost)]
        exact .cons ⟨hop, y, List.mem_of_getElem? hy, hname'.trans hname, hreaches⟩ .nil
      rw [hcall]
      exact (Calls.nil (hjs₁.plain hpre)).append hcalls

theorem RoutinePlaced.callsAll (h : RoutinePlaced image a body epilogue parts)
    (hns : NodesCode fits a ns code) (hpasses : ∀ n ∈ ns, n.Passes)
    (hjs : PlacedAs image body epilogue address code js) :
    Calls image (ns.filterMap calledRoutine?) address js := by
  induction hns generalizing address js with
  | nil =>
    cases hjs
    exact .nil (by simp)
  | @cons n ns code rest hn _ ih =>
    obtain ⟨js₁, js₂, rfl, hjs₁, hjs₂⟩ := hjs.split
    have hhead := h.calls hn (hpasses n (by simp)) hjs₁
    have htail := ih (fun m hm => hpasses m (by simp [hm])) hjs₂
    have hms : (n :: ns).filterMap calledRoutine? =
        (calledRoutine? n).toList ++ ns.filterMap calledRoutine? := by
      cases hc : calledRoutine? n <;> simp [hc]
    rw [hms]
    exact hhead.append htail

theorem calledRoutine?_eq_none (h : ¬ n.Passes) : calledRoutine? n = none := by
  unfold calledRoutine?
  split
  · rename_i hop
    refine absurd ?_ h
    rcases hop with hop | hop <;> exact ⟨by rw [hop]; rfl, by rw [hop]; nofun⟩
  · rfl

/-- The code of a tree whose root alone may jump or return. -/
theorem RoutinePlaced.tree (h : RoutinePlaced image a body epilogue parts)
    (hn : NodesCode fits a n.postorder code) (hquiet : n.QuietBelow)
    (hjs : PlacedAs image body epilogue address code js) : TreeFlow image parts n address js := by
  have hbelow : ∀ k ∈ n.children.flatMap Node.postorder, k.Passes := by
    intro k hk
    obtain ⟨c, hc, hk⟩ := List.mem_flatMap.mp hk
    exact hquiet c hc k hk
  rw [Node.postorder_eq] at hn
  obtain ⟨pre, post, rfl, hpre, hpost⟩ := hn.split
  obtain ⟨js₁, js₂, rfl, hjs₁, hjs₂⟩ := hjs.split
  have hcalls := h.callsAll hpre hbelow hjs₁
  cases hpost with
  | @cons _ _ own _ hroot hnil =>
    cases hnil
    rw [List.append_nil] at hjs₂
    by_cases hpasses : n.Passes
    · refine .runsOn hpasses ?_
      rw [Node.postorder_eq, List.filterMap_append]
      refine hcalls.append ?_
      have hown := h.calls hroot hpasses hjs₂
      cases hc : calledRoutine? n <;> simpa [hc] using hown
    · -- the calls below the root are all there are
      have hms : n.postorder.filterMap calledRoutine? =
          (n.children.flatMap Node.postorder).filterMap calledRoutine? ++ [] := by
        rw [Node.postorder_eq, List.filterMap_append]
        simp [calledRoutine?_eq_none hpasses]
      cases hroot with
      | straight hjump hret => exact absurd ⟨hjump, hret⟩ hpasses
      | access hstatic =>
        exact absurd (passes_of_static (isStaticAccess_of_staticField? hstatic)) hpasses
      | call hcall => simp [calledRoutine?_eq_none hpasses] at hcall
      | @jump pre' op condition b hjump hb hplain hop _ =>
        obtain ⟨js₃, j, rfl, hjs₃, hj⟩ := hjs₂.split_last
        obtain ⟨hopcode, id, x, hid, hx, hreaches⟩ := jump_of_patches hop hj
        obtain ⟨y, hy, rfl⟩ := exists_of_offset? hx
        rw [← List.append_assoc]
        refine .jump hjump hb ((h.blocks b id hid).trans hy) ?_ (hopcode ▸ hop) ?_
        · rw [hms]
          exact hcalls.append (.nil (hjs₃.plain hplain))
        · rwa [List.length_append, Nat.mul_add, ← Nat.add_assoc]
      | ret hret hplain =>
        obtain ⟨js₃, j, rfl, hjs₃, hj⟩ := hjs₂.split_last
        obtain ⟨hopcode, x, hx, hreaches⟩ := ret_of_patches hj
        obtain ⟨y, hy, rfl⟩ := exists_of_offset? hx
        obtain rfl : y = parts.epilogue := Option.some.inj (hy.symm.trans h.epilogue)
        rw [← List.append_assoc]
        refine .ret hret ?_ hopcode ?_
        · rw [hms]
          exact hcalls.append (.nil (hjs₃.plain hplain))
        · rwa [List.length_append, Nat.mul_add, ← Nat.add_assoc]

theorem RoutinePlaced.trees (h : RoutinePlaced image a body epilogue parts)
    (hns : NodesCode fits a (ns.flatMap Node.postorder) code) (hquiet : ∀ n ∈ ns, n.QuietBelow)
    (hjs : PlacedAs image body epilogue address code js) : TreesFlow image parts address ns js := by
  induction ns generalizing address code js with
  | nil =>
    cases hns
    cases hjs
    exact .nil address
  | cons n ns ih =>
    rw [List.flatMap_cons] at hns
    obtain ⟨pre, post, rfl, hpre, hpost⟩ := hns.split
    obtain ⟨js₁, js₂, rfl, hjs₁, hjs₂⟩ := hjs.split
    exact .cons (h.tree hpre (hquiet n (by simp)) hjs₁)
      (ih hpost (fun m hm => hquiet m (by simp [hm])) hjs₂)

end

/-! ## Placed routines -/

theorem Objects.Consecutive.next {start : Nat} {ps : List PlacedObject} (h : Consecutive start ps)
    {k : Nat} {x y : PlacedObject} (hx : ps[k]? = some x) (hy : ps[k + 1]? = some y) :
    y.offset = x.offset + x.size := by
  induction ps generalizing start k with
  | nil => simp at hx
  | cons p ps ih =>
    obtain ⟨hp, hrest⟩ := h
    cases k with
    | zero =>
      obtain rfl : p = x := by simpa using hx
      cases ps with
      | nil => simp at hy
      | cons q qs =>
        obtain rfl : q = y := by simpa using hy
        rw [hrest.1, hp]
    | succ k => exact ih hrest hx hy

/-- The control flow of a placed routine is that of its trees. -/
structure ControlFlow (image : Image) (c : CompiledRoutine) (start : PlacedObject) (parts : Parts) :
    Prop where
  routine : image.objects[c.routine]? = some start
  returns : start.kind = .routine (some parts.epilogue.id)
  objects : image.objects.filter (·.kind = .block c.routine) = parts.row
  row : Consecutive start.offset parts.row
  ordered : (c.tree.blocks.toList.map Block.offset).Pairwise (· < ·)
  prologue : ∀ i ∈ parts.prologue.code, i.opcode.isBranch = false
  epilogue : ∃ pre, parts.epilogue.code.toList = pre ++ [Frame.returnBranch] ∧
    ∀ i ∈ pre, i.opcode.isBranch = false
  blocks : List.Forall₂ (fun (b : Block) (x : PlacedObject) =>
    TreesFlow image parts x.offset b.roots.toList x.code.toList) c.tree.blocks.toList parts.blocks
  /-- A block whose last tree neither jumps nor returns is followed by the next one. -/
  falls : ∀ (k : Nat) b x next, c.tree.blocks[k]? = some b → parts.blocks[k]? = some x →
    (parts.blocks ++ [parts.epilogue])[k + 1]? = some next →
    (∀ n, b.roots.back? = some n → n.Passes) →
    next.offset = x.offset + 4 * x.code.size ∧ ∃ pre post, x.code.toList = pre ++ post ∧
      TreesFlow image parts x.offset b.roots.toList.dropLast pre ∧
      ∀ i ∈ post, i.opcode.isBranch = true → i.opcode = .brsl

/-- Straight code is placed as straight code. -/
theorem isBranch_of_patches {is : List Instr} (hlength : js.length = is.length) (h : ∀ (k : Nat) i
      j, is[k]? = some i → js[k]? = some j → image.Patches (some epilogue) (address + 4 * k) i j)
    (hplain : ∀ i ∈ is, i.opcode.isBranch = false) : ∀ j ∈ js, j.opcode.isBranch = false := by
  intro j hj
  obtain ⟨k, hk, rfl⟩ := List.mem_iff_getElem.mp hj
  have hk' : k < is.length := hlength ▸ hk
  have hi := hplain _ (List.getElem_mem hk')
  have hret : is[k].opcode ≠ .ret := by
    intro hret
    rw [hret] at hi
    cases hi
  rw [(h k _ _ (List.getElem?_eq_getElem hk') (List.getElem?_eq_getElem hk)).fields hret]
  exact hi

theorem exists_forall₂ {R : α → β → Prop} {l : List α} (h : ∀ a ∈ l, ∃ b, R a b) :
    ∃ bs, List.Forall₂ R l bs := by
  induction l with
  | nil => exact ⟨[], .nil⟩
  | cons a l ih =>
    obtain ⟨b, hb⟩ := h a (by simp)
    obtain ⟨bs, hbs⟩ := ih fun a ha => h a (by simp [ha])
    exact ⟨b :: bs, .cons hb hbs⟩

theorem filterMap_of_forall₂ {g : α → Option β} {l : List α} {bs : List β}
    (h : List.Forall₂ (fun a b => g a = some b) l bs) : l.filterMap g = bs := by
  induction h with
  | nil => rfl
  | cons hab _ ih => rw [List.filterMap_cons_some hab, ih]

def Objects.Image.Holds (image : Image) (b : SelectedBlock) (x : PlacedObject) : Prop :=
  image.objects[b.object]? = some x

/-- The branch back to the caller is placed as it is, and the rest stays straight. -/
theorem epilogue_of_patches {pre : List Instr}
    (hlength : js.length = (pre ++ [Frame.returnBranch]).length) (h : ∀ (k : Nat) i j, (pre ++
      [Frame.returnBranch])[k]? = some i → js[k]? = some j → image.Patches (some epilogue) (address
      + 4 * k) i j) (hplain : ∀ i ∈ pre, i.opcode.isBranch = false) :
    ∃ pre', js = pre' ++ [Frame.returnBranch] ∧ ∀ i ∈ pre', i.opcode.isBranch = false := by
  rcases List.eq_nil_or_concat js with rfl | ⟨js, j, rfl⟩
  · simp at hlength
  · rw [List.concat_eq_append] at hlength h ⊢
    have hsame : js.length = pre.length := by simpa using hlength
    have hj : j = Frame.returnBranch := by
      refine (h pre.length _ j (by simp) (by simp [← hsame])).others ?_
      rintro (hret | ⟨t, ht, -⟩)
      · cases hret
      · cases ht
    have hfront : ∀ (k : Nat) i j', pre[k]? = some i → js[k]? = some j' →
        image.Patches (some epilogue) (address + 4 * k) i j' := by
      intro k i j' hi hj'
      refine h k i j' ?_ ?_
      · rw [List.getElem?_append_left (List.getElem?_eq_some_iff.mp hi).1, hi]
      · rw [List.getElem?_append_left (List.getElem?_eq_some_iff.mp hj').1, hj']
    exact ⟨js, by rw [hj], isBranch_of_patches hsame hfront hplain⟩

namespace Sound

variable {o : Options} {p : Program} {image : Image} {c : CompiledRoutine} (h : Sound o p)
  (hfinish : p.finish = .ok image) (hc : c ∈ p.routines)
variable {s : SelectedBlock} {x : PlacedObject}

include h hfinish hc

/-- A block of a compiled routine as it is placed. -/
theorem patches {b : SelectedBlock} (hb : b ∈ c.selected.allBlocks) {x : PlacedObject}
    (hx : image.Holds b x) : x.id = b.object ∧ x.code.toList.length = b.code.toList.length ∧
      ∀ (k : Nat) i j, b.code.toList[k]? = some i → x.code.toList[k]? = some j →
        image.Patches (some c.selected.epilogue.object) (x.offset + 4 * k) i j := by
  obtain ⟨-, y, hy, hid, -, hsize, hsettles⟩ := h.placed hfinish hc hb
  obtain rfl : x = y := Option.some.inj (hx.symm.trans hy)
  refine ⟨hid, by simpa using hsize, ?_⟩
  intro k i j hi hj
  rw [Array.getElem?_toList] at hi hj
  obtain ⟨i', hresolves, hj'⟩ := hsettles k i j hi hj
  exact hj'.patches hresolves

/-- The parts of the routine, in order, and what names them. -/
theorem exists_parts : ∃ parts : Parts,
    image.objects.filter (·.kind = .block c.routine) = parts.row ∧
      image.objects[c.selected.prologue.object]? = some parts.prologue ∧
      List.Forall₂ image.Holds c.selected.blocks parts.blocks ∧
      RoutinePlaced image p.arena (c.selected.blocks.map (·.object)).toArray
        c.selected.epilogue.object parts := by
  have hexists : ∀ b ∈ c.selected.allBlocks, ∃ x, image.Holds b x := by
    intro b hb
    obtain ⟨-, x, hx, -⟩ := h.placed hfinish hc hb
    exact ⟨x, hx⟩
  obtain ⟨prologue, hprologue⟩ := hexists c.selected.prologue (by simp [SelectedRoutine.allBlocks])
  obtain ⟨epilogue, hepilogue⟩ := hexists c.selected.epilogue (by simp [SelectedRoutine.allBlocks])
  obtain ⟨blocks, hblocks⟩ := exists_forall₂ fun b (hb : b ∈ c.selected.blocks) =>
    hexists b (by simp [SelectedRoutine.allBlocks, hb])
  refine ⟨⟨prologue, blocks, epilogue⟩, ?_, hprologue, hblocks, ?_, ?_, hepilogue⟩
  · rw [h.filter_blocks hfinish, (h.installed c hc).blocks, List.filterMap_map]
    have hrow : List.Forall₂ image.Holds c.selected.allBlocks (prologue :: blocks ++ [epilogue]) :=
      List.rel_append (.cons hprologue hblocks) (.cons hepilogue .nil)
    exact filterMap_of_forall₂ hrow
  · intro id y hy
    obtain ⟨x, hx, -, hname, -⟩ := (h.arranges hfinish).placed id y hy
    exact ⟨x, hx, hname⟩
  · intro k id hk
    rw [List.getElem?_toArray, List.getElem?_map, Option.map_eq_some_iff] at hk
    obtain ⟨b, hb, rfl⟩ := hk
    obtain ⟨hlt, rfl⟩ := List.getElem?_eq_some_iff.mp hb
    have hlt' : k < blocks.length := hblocks.length_eq ▸ hlt
    rw [List.getElem?_eq_getElem hlt']
    exact ((List.forall₂_iff_get.mp hblocks).2 k hlt hlt').symm

/-- The code of a block of trees as it is placed. -/
theorem placedAs (hs : s ∈ c.selected.blocks) (hx : image.objects[s.object]? = some x)
    (hcode : s.code.toList = code.map (resolveTarget (c.selected.blocks.map (·.object)).toArray)) :
    PlacedAs image (c.selected.blocks.map (·.object)).toArray c.selected.epilogue.object x.offset
      code x.code.toList := by
  obtain ⟨-, hlength, hpatches⟩ :=
    h.patches hfinish hc (by simp [SelectedRoutine.allBlocks, hs] : s ∈ c.selected.allBlocks) hx
  refine .of_getElem? ?_ ?_
  · rw [hlength, hcode, List.length_map]
  · intro k i j hi hj
    refine hpatches k _ j ?_ hj
    rw [hcode, List.getElem?_map, hi]
    rfl

theorem treesFlow (hparts : RoutinePlaced image p.arena (c.selected.blocks.map (·.object)).toArray
      c.selected.epilogue.object parts) {b : Block} (hb : b ∈ c.tree.blocks)
    (hs : s ∈ c.selected.blocks) (hx : image.objects[s.object]? = some x)
    (hcode : s.code.toList = code.map (resolveTarget (c.selected.blocks.map (·.object)).toArray))
    (hnodes : NodesCode False p.arena (b.roots.toList.flatMap Node.postorder) code) :
    TreesFlow image parts x.offset b.roots.toList x.code.toList := by
  obtain ⟨m, body, resolver, tree, hbuild, hblocks⟩ := (h.installed c hc).built
  have hquiet : ∀ n ∈ b.roots.toList, n.QuietBelow := by
    intro n hn
    rw [hblocks] at hb
    exact build_quiet hbuild b hb n (Array.mem_toList_iff.mp hn)
  exact hparts.trees hnodes hquiet (h.placedAs hfinish hc hs hx hcode)

/-- Every block of trees flows on as its object. -/
theorem blocksFlow (hparts : RoutinePlaced image p.arena (c.selected.blocks.map (·.object)).toArray
      c.selected.epilogue.object parts)
    (hblocks : List.Forall₂ image.Holds c.selected.blocks parts.blocks) :
    List.Forall₂ (fun (b : Block) (x : PlacedObject) =>
      TreesFlow image parts x.offset b.roots.toList x.code.toList) c.tree.blocks.toList
        parts.blocks := by
  have hcode : RoutineCode False p.arena c.tree c.selected :=
    (h.installed c hc).lowered False nofun nofun
  refine List.forall₂_iff_get.mpr ⟨hcode.blocks.length_eq.trans hblocks.length_eq, ?_⟩
  intro k hk hk'
  have hk'' : k < c.selected.blocks.length := hblocks.length_eq ▸ hk'
  obtain ⟨code, hcodes, hnodes⟩ := (List.forall₂_iff_get.mp hcode.blocks).2 k hk hk''
  exact h.treesFlow hfinish hc hparts (Array.mem_toList_iff.mp (List.getElem_mem hk))
    (List.getElem_mem hk'') ((List.forall₂_iff_get.mp hblocks).2 k hk'' hk') hcodes hnodes

theorem controlFlow : ∃ start parts, ControlFlow image c start parts := by
  have hcode : RoutineCode False p.arena c.tree c.selected :=
    (h.installed c hc).lowered False nofun nofun
  obtain ⟨parts, hobjects, hprologue, hblocks, hparts⟩ := h.exists_parts hfinish hc
  obtain ⟨-, hlengthx, hpatchesx⟩ := h.patches hfinish hc (by simp [SelectedRoutine.allBlocks])
    hprologue
  obtain ⟨⟨start, hstart, hkind⟩, -⟩ := h.placed hfinish hc
    (by simp [SelectedRoutine.allBlocks] : c.selected.epilogue ∈ c.selected.allBlocks)
  obtain ⟨hid, hlengthy, hpatchesy⟩ := h.patches hfinish hc (by simp [SelectedRoutine.allBlocks])
    hparts.epilogue
  have hrow : Consecutive start.offset parts.row := by
    rw [← hobjects]
    exact (h.arranges hfinish).blocks c.routine start _ hstart hkind
  have hflow := h.blocksFlow hfinish hc hparts hblocks
  refine ⟨start, parts, hstart, by rw [hkind, hid], hobjects, hrow, ?_, ?_, ?_, hflow, ?_⟩
  · obtain ⟨m, body, resolver, tree, hbuild, heq⟩ := (h.installed c hc).built
    rw [heq]
    exact build_offsets hbuild
  · intro i hi
    exact isBranch_of_patches hlengthx hpatchesx
      (fun i hi => (hcode.prologue i (Array.mem_toList_iff.mp hi)).1) i (Array.mem_toList_iff.mpr hi)
  · obtain ⟨pre, hpre, hplain⟩ := hcode.epilogue
    rw [hpre] at hlengthy hpatchesy
    exact epilogue_of_patches hlengthy hpatchesy fun i hi => (hplain i hi).1
  · intro k b x next hb hx hnext hlast
    have hk : c.tree.blocks.toList[k]? = some b := by rwa [Array.getElem?_toList]
    obtain ⟨hlt, rfl⟩ := List.getElem?_eq_some_iff.mp hk
    obtain ⟨hlt', rfl⟩ := List.getElem?_eq_some_iff.mp hx
    have htrees := (List.forall₂_iff_get.mp hflow).2 k hlt hlt'
    refine ⟨?_, htrees.runsOn fun n hn => hlast n ?_⟩
    · have hsize : parts.blocks[k].size = 4 * parts.blocks[k].code.size := by
        have hmem : parts.blocks[k] ∈ image.objects.filter (·.kind = .block c.routine) := by
          rw [hobjects]
          simp [Parts.row]
        have hblock : parts.blocks[k].kind = .block c.routine := by
          simpa using (List.mem_filter.mp hmem).2
        simp [PlacedObject.size, hblock]
      rw [← hsize]
      exact hrow.next (k := k + 1) (by simp [Parts.row, List.getElem?_append_left hlt'])
        (by simpa [Parts.row] using hnext)
    · rwa [← Array.getLast?_toList]

end Sound

/-- However a program came about, once it is placed the control flow of every compiled routine is
that of its trees: its parts stand in a row, in the order of the trees, jumps and returns of the
trees are branches to the parts they name, other trees run on to the next part, and besides these
only calls and the end of the epilogue branch. -/
theorem finish_controlFlow {o : Options} {p : Program} {image : Image} (hp : p.Reached o)
    (hfinish : p.finish = .ok image) {c : CompiledRoutine} (hc : c ∈ p.routines) :
    ∃ start parts, ControlFlow image c start parts :=
  hp.sound.controlFlow hfinish hc

theorem Program.mem_routines_of_compile {p : Program} {m : Method} {body : Body}
    {resolver : Resolver} {c : CompiledRoutine} (h : (p.compile m body resolver).1 = .ok c) :
    c ∈ (p.compile m body resolver).2.routines := by
  rcases hrun : p.compile m body resolver with ⟨result, q⟩
  rw [hrun] at h
  obtain rfl : result = .ok c := h
  obtain ⟨id, p', -, hq⟩ := Program.compile_ok hrun
  obtain ⟨-, _, _, _, -, -, -, rfl⟩ := Program.compileDeclared_ok hq
  simp

/-- Calls itself with a smaller number until the number is zero. -/
def downMethod : Method := { name := "Down", parameters := [.i4] }

def downBody : Body :=
  { code := [0x02, 0x2C, 0x08, 0x02, 0x17, 0x59, 0x28, 0x01, 0x00, 0x00, 0x06, 0x2A] }

def downProgram : Except CompileError CompiledRoutine × Program :=
  ({} : Program).compile downMethod downBody (TokenTable.of [.method downMethod]).resolver

/-- The method jumps over its own call, and the call falls into the return. -/
theorem down_controlFlow : ∃ c image start parts, downProgram.1 = .ok c ∧
    downProgram.2.finish = .ok image ∧ ControlFlow image c start parts := by
  have hcompiled : downProgram.1.isOk = true := by decide +kernel
  have hplaced : downProgram.2.finish.isOk = true := by decide +kernel
  cases hc : downProgram.1 with
  | error e => simp [hc, Except.isOk, Except.toBool] at hcompiled
  | ok c =>
    cases himage : downProgram.2.finish with
    | error e => simp [himage, Except.isOk, Except.toBool] at hplaced
    | ok image =>
      have hreached : downProgram.2.Reached {} := .compile _ _ _ (.new rfl)
      obtain ⟨start, parts, hflow⟩ :=
        finish_controlFlow hreached himage (Program.mem_routines_of_compile hc)
      exact ⟨c, image, start, parts, rfl, rfl, hflow⟩

end SpuCompiler
