import SpuCompiler.Proofs.Selection.NodeCode
import SpuCompiler.Proofs.Selection.Traversal

/-!
The code of trees. Lowering a tree without an error appends the code of its nodes, children
before their parent, and adds data objects for wide constants and no other objects. The code of a
block is that of its trees, one after the other.
-/

namespace SpuCompiler.Objects

variable {a b : Arena}

def Arena.AddsData : Arena → Arena → Prop :=
  Relation.ReflTransGen fun a b => ∃ name data id, a.addData name data = .ok (id, b)

theorem Arena.AddsData.adds (h : a.AddsData b) : a.Adds b := by
  induction h with
  | refl => exact .refl
  | tail _ hstep ih =>
    obtain ⟨name, data, id, hadd⟩ := hstep
    exact ih.tail ⟨_, id, hadd⟩

theorem Arena.AddsData.keepsNames (h : a.AddsData b) : Selection.KeepsNames a b :=
  fun id o ho => ⟨o, h.adds.get? id o ho, rfl⟩

/-- What is new is data. -/
theorem Arena.AddsData.new (h : a.AddsData b) {id : ObjectId} {o : Object} (ho : b.get? id = some o) :
    a.get? id = some o ∨ (a.size ≤ id ∧ o.kind = .data) := by
  induction h with
  | refl => exact .inl ho
  | tail hab hstep ih =>
    obtain ⟨name, data, _, hadd⟩ := hstep
    obtain ⟨-, rfl⟩ := Arena.insert_ok hadd
    rcases Arena.get?_push ho with ho | ⟨rfl, rfl⟩
    · exact ih ho
    · exact .inr ⟨(AddsData.adds hab).size_le, rfl⟩

theorem Arena.AddsData.built (h : a.AddsData b) (ha : Built a) : Built b := by
  induction h with
  | refl => exact ha
  | tail _ hstep ih =>
    obtain ⟨name, data, _, hadd⟩ := hstep
    exact .addData ih hadd

end SpuCompiler.Objects

namespace SpuCompiler.Selection

open Machine Bytecode Trees Objects

variable {fits : Prop} {α β : Type}

inductive NodesCode (fits : Prop) (arena : Arena) : List Node → List Instr → Prop
  | nil : NodesCode fits arena [] []
  | cons {n : Node} {ns : List Node} {code rest : List Instr} : NodeCode fits arena n code →
      NodesCode fits arena ns rest → NodesCode fits arena (n :: ns) (code ++ rest)

namespace NodesCode

variable {a b : Arena} {ns ns' : List Node} {code code' : List Instr}

theorem mono (h : NodesCode fits a ns code) (hab : KeepsNames a b) : NodesCode fits b ns code := by
  induction h with
  | nil => exact .nil
  | cons hn _ ih => exact .cons (hn.mono hab) ih

theorem single {n : Node} (h : NodeCode fits a n code) : NodesCode fits a [n] code := by
  have := NodesCode.cons h .nil
  rwa [List.append_nil] at this

theorem append (h : NodesCode fits a ns code) (h' : NodesCode fits a ns' code') :
    NodesCode fits a (ns ++ ns') (code ++ code') := by
  induction h with
  | nil => exact h'
  | cons hn _ ih =>
    rw [List.append_assoc]
    exact .cons hn ih

theorem split (h : NodesCode fits a (ns ++ ns') code) :
    ∃ pre post, code = pre ++ post ∧ NodesCode fits a ns pre ∧ NodesCode fits a ns' post := by
  induction ns generalizing code with
  | nil => exact ⟨[], code, rfl, .nil, h⟩
  | cons n ns ih =>
    cases h with
    | cons hn hrest =>
      obtain ⟨pre, post, rfl, hpre, hpost⟩ := ih hrest
      exact ⟨_ ++ pre, post, (List.append_assoc ..).symm, .cons hn hpre, hpost⟩

end NodesCode

/-! ## Trees -/

structure Lowered (fits : Prop) (ns : List Node) (p p' : Progress) : Prop where
  arena : p.arena.AddsData p'.arena
  code : ∃ code, p'.stream.code.toList = p.stream.code.toList ++ code ∧
    NodesCode fits p'.arena ns code

theorem Lowered.trans {ns ns' : List Node} {p q r : Progress} (h : Lowered fits ns p q)
    (h' : Lowered fits ns' q r) : Lowered fits (ns ++ ns') p r := by
  obtain ⟨code, hcode, hns⟩ := h.code
  obtain ⟨code', hcode', hns'⟩ := h'.code
  refine ⟨h.arena.trans h'.arena, code ++ code', ?_, (hns.mono h'.arena.keepsNames).append hns'⟩
  rw [hcode', hcode, List.append_assoc]

/-- The computation lowers nodes, if it makes no error, and gives a result that satisfies the
condition. -/
def Lowers (fits : Prop) (m : LowerM α) (ns : List Node) (Q : α → Prop) : Prop :=
  ∀ p p' x, p.arena.Indexed → m.run p = (x, p') → p'.errors.size ≤ p.errors.size →
    Lowered fits ns p p' ∧ Q x

namespace Lowers

theorem pure {x : α} {Q : α → Prop} (h : Q x) : Lowers fits (pure x) [] Q := by
  rintro p _ _ - ⟨⟩ -
  exact ⟨⟨.refl, [], (List.append_nil _).symm, .nil⟩, h⟩

theorem bind {m : LowerM α} {f : α → LowerM β} {ns ns' : List Node} {P : α → Prop} {Q : β → Prop}
    (hm : Lowers fits m ns P) (hf : ∀ x, P x → Lowers fits (f x) ns' Q) (hgm : Growing m)
    (hgf : ∀ x, Growing (f x)) : Lowers fits (m >>= f) (ns ++ ns') Q := by
  intro p p' y harena hrun herr
  obtain ⟨x, q, hrun₁, hrun₂, herr₁, herr₂⟩ := hgm.run_bind hgf hrun herr
  obtain ⟨hlow, hx⟩ := hm p q x harena hrun₁ herr₁
  obtain ⟨hlow', hy⟩ := hf x hx q p' y (hlow.arena.adds.indexed harena) hrun₂ herr₂
  exact ⟨hlow.trans hlow', hy⟩

end Lowers

namespace Lowering

variable {L : Lowering} {n : Node} {regs : List Register}
variable {bs : List Block} {p p' : Progress} {codes : List (Array Instr)}

theorem wideConstant?_op {bits : BitVec 64} (h : wideConstant? n = some bits) :
    ∃ c, n.op = .ldc c := by
  unfold wideConstant? at h
  split at h
  · exact ⟨_, ‹_›⟩
  · exact ⟨_, ‹_›⟩
  · cases h

theorem loadWide_lowers {bits : BitVec 64} (hwide : wideConstant? n = some bits) :
    Lowers fits (L.loadWide n bits) [n] ValidResult := by
  rintro p p' o - hrun herr
  rcases loadWide_cases hrun with ⟨hmore, -⟩ | ⟨name, id, r, hadd, -, rfl, hstream⟩
  · omega
  · obtain ⟨c, hop⟩ := wideConstant?_op hwide
    have hlqr : Straight fits (NamesConstant n) (Emit.targeted .lqr (.object id)) Register.Valid :=
      Emit.targeted_straight (by simp) (by simp [NamesConstant, hwide])
    obtain ⟨code, hcode, hplain, hvalid⟩ := hlqr p.stream
    rw [hstream] at hcode hvalid
    refine ⟨⟨.single ⟨name, _, id, hadd⟩, code, hcode, .single (.straight ?_ ?_ ?_ ?_ hplain)⟩, ?_⟩
    · simp [hop, Op.isBranch, Op.flow]
    · simp [hop]
    · simp [calledRoutine?, hop]
    · exact staticField?_eq_none (by simp [Code.IsStaticAccess, hop])
    · rintro _ ⟨⟩
      exact hvalid

theorem lowerNode_lowers (hregs : ∀ r ∈ regs, r.Valid) (hlength : regs.length = n.children.length)
    (hnode : fits → NodeFits L.options n) (hframe : FrameFits fits L.options L.vars) :
    Lowers fits (L.lowerNode n regs) [n] ValidResult := by
  intro p p' o harena hrun herr
  rcases lowerNode_cases hrun herr with ⟨bits, hwide, hrun⟩ | ⟨e, he, hemit⟩
  · exact loadWide_lowers hwide p p' o harena hrun herr
  · cases hemit
    obtain ⟨code, hcode, hshape, hvalid⟩ :=
      Code.of_writes hregs hlength hnode hframe harena e he p.stream
    exact ⟨⟨.refl, code, hcode, .single hshape⟩, hvalid⟩

theorem judges_lowers (hframe : FrameFits fits L.options L.vars) :
    L.Judges (fun m ns Q => Lowers fits m ns Q) (fun n => fits → NodeFits L.options n)
      Register.Valid where
  pure := .pure
  bind hgm hgf hm hf := hm.bind hf hgm hgf
  fresh := by
    rintro p _ _ - ⟨⟩ -
    exact ⟨⟨.refl, [], (List.append_nil _).symm, .nil⟩, trivial⟩
  node hnode hlength hregs := lowerNode_lowers hregs hlength hnode hframe

/-! ## Blocks -/

/-- The code of the first block is taken before the others are lowered. -/
theorem lowerBlocks_cons {b : Block} (hrun : (L.lowerBlocks (b :: bs)).run p = (codes, p'))
    (herr : p'.errors.size ≤ p.errors.size) :
    ∃ q codes', (L.lowerRoots b.roots.toList).run p = ((), q) ∧
      (L.lowerBlocks bs).run { q with stream := { q.stream with code := #[] } } = (codes', p') ∧
      codes = q.stream.code :: codes' ∧ q.errors.size ≤ p.errors.size ∧
      p'.errors.size ≤ q.errors.size := by
  rw [lowerBlocks, StateT.run_bind] at hrun
  rcases hrun₁ : (L.lowerRoots b.roots.toList).run p with ⟨_, q⟩
  simp only [hrun₁] at hrun
  rcases hrun₂ : (L.lowerBlocks bs).run { q with stream := { q.stream with code := #[] } } with
    ⟨codes', p''⟩
  have hrun₃ : ((L.lowerBlocks bs >>= fun codes' => pure (q.stream.code :: codes')).run
      { q with stream := { q.stream with code := #[] } }) = (codes, p') := hrun
  rw [StateT.run_bind, hrun₂] at hrun₃
  cases hrun₃
  have herr₁ := ((lowerRoots_growing L _).grows hrun₁).errors
  have herr₂ := ((lowerBlocks_growing L bs).grows hrun₂).errors
  exact ⟨q, codes', rfl, hrun₂, rfl, herr₂.trans herr, herr.trans herr₁⟩

/-- Each block starts with no code, so what is taken after it is its own. -/
theorem lowerBlocks_lowers (hframe : FrameFits fits L.options L.vars)
    (hfits : fits → ∀ b ∈ bs, ∀ m ∈ b.roots.toList.flatMap Node.postorder, NodeFits L.options m)
    (hrun : (L.lowerBlocks bs).run p = (codes, p')) (hstart : p.stream.code = #[])
    (harena : p.arena.Indexed) (herr : p'.errors.size ≤ p.errors.size) :
    p.arena.AddsData p'.arena ∧ p'.stream.code = #[] ∧ List.Forall₂ (fun b code =>
      NodesCode fits p'.arena (b.roots.toList.flatMap Node.postorder) code.toList) bs codes := by
  induction bs generalizing p codes with
  | nil =>
    cases hrun
    exact ⟨.refl, hstart, .nil⟩
  | cons b bs ih =>
    obtain ⟨q, codes', hrun₁, hrun₂, rfl, herr₁, herr₂⟩ := lowerBlocks_cons hrun herr
    obtain ⟨hlow, -⟩ := (judges_lowers hframe).lowerRoots (fun n hn k hk hf => hfits hf b (by simp) k
      (List.mem_flatMap.mpr ⟨n, hn, hk⟩)) p q _ harena hrun₁ herr₁
    obtain ⟨hadds, hend, hrest⟩ := ih (fun hf c hc => hfits hf c (by simp [hc])) hrun₂ rfl
      (hlow.arena.adds.indexed harena) herr₂
    obtain ⟨code, hcode, hns⟩ := hlow.code
    refine ⟨hlow.arena.trans hadds, hend, .cons ?_ hrest⟩
    rw [hstart] at hcode
    rw [hcode]
    exact hns.mono hadds.keepsNames

end Lowering

end SpuCompiler.Selection
