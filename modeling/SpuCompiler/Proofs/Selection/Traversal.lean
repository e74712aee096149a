import SpuCompiler.Proofs.Selection.Lowering
import SpuCompiler.Proofs.Trees.Roots

/-!
Lowering goes through its trees from the children to the root. What is shown of single nodes, of a
fresh register in the place of a missing one, and of one computation behind another, holds of the
lowering of all trees.
-/

namespace SpuCompiler.Selection.Lowering

open Machine Trees

variable {L : Lowering} {ok : Node → Prop} {V : Register → Prop} {α : Type}
  {P : ∀ {α : Type}, LowerM α → List Node → (α → Prop) → Prop}

/-- `P m ns Q` says of a computation that it lowers the nodes and has a result with `Q`. It is shown
of the lowering of nodes that are `ok`, from registers that satisfy `V` to one that does. -/
structure Judges (L : Lowering) (P : ∀ {α : Type}, LowerM α → List Node → (α → Prop) → Prop)
    (ok : Node → Prop) (V : Register → Prop) : Prop where
  pure {α : Type} {x : α} {Q : α → Prop} : Q x → P (Pure.pure x) [] Q
  bind {α β : Type} {m : LowerM α} {f : α → LowerM β} {ns ns' : List Node} {R : α → Prop}
    {Q : β → Prop} : Growing m → (∀ x, Growing (f x)) → P m ns R →
    (∀ x, R x → P (f x) ns' Q) → P (m >>= f) (ns ++ ns') Q
  fresh : P (emit Emit.fresh) [] V
  node {n : Node} {regs : List Register} : ok n → regs.length = n.children.length →
    (∀ r ∈ regs, V r) → P (L.lowerNode n regs) [n] fun o => ∀ r, o = some r → V r

namespace Judges

variable (h : L.Judges P ok V)

include h

/-- An operand is lowered before what uses its register. -/
theorem operand {m : LowerM (Option Register)} {f : Register → LowerM α} {ns ns' : List Node}
    {Q : α → Prop} (hgm : Growing m) (hgf : ∀ a, Growing (f a))
    (hm : P m ns fun o => ∀ r, o = some r → V r) (hf : ∀ a, V a → P (f a) ns' Q) :
    P (m >>= fun o => orFresh o >>= f) (ns ++ ns') Q := by
  refine h.bind hgm (fun o => (orFresh_growing o).bind hgf) hm fun o ho => ?_
  have hfresh : P (orFresh o) [] V := by
    cases o with
    | none => exact h.fresh
    | some r => exact h.pure (ho r rfl)
  exact h.bind (orFresh_growing o) hgf hfresh hf

mutual

theorem lower : ∀ n : Node, (∀ k ∈ n.postorder, ok k) →
    P (L.lower n) n.postorder fun o => ∀ r, o = some r → V r
  | .leaf _, hn => by
    rw [Lowering.lower, Node.postorder]
    exact h.node (Node.forall_postorder.mp hn).2 rfl (by simp)
  | .unary _ l, hn => by
    obtain ⟨hchildren, hroot⟩ := Node.forall_postorder.mp hn
    rw [Lowering.lower, Node.postorder]
    exact h.operand (lower_growing L l) (fun _ => lowerNode_growing _ _ _)
      (lower l (hchildren l (by simp [Node.children]))) fun a ha =>
      h.node hroot rfl (by simpa using ha)
  | .rightOnly _ r, hn => by
    obtain ⟨hchildren, hroot⟩ := Node.forall_postorder.mp hn
    rw [Lowering.lower, Node.postorder]
    exact h.operand (lower_growing L r) (fun _ => lowerNode_growing _ _ _)
      (lower r (hchildren r (by simp [Node.children]))) fun a ha =>
      h.node hroot rfl (by simpa using ha)
  | .binary _ l r, hn => by
    obtain ⟨hchildren, hroot⟩ := Node.forall_postorder.mp hn
    rw [Lowering.lower, Node.postorder, List.append_assoc]
    refine h.operand (lower_growing L l) (fun _ => (lower_growing L r).bind fun o =>
      (orFresh_growing o).bind fun _ => lowerNode_growing _ _ _)
      (lower l (hchildren l (by simp [Node.children]))) fun a ha => ?_
    exact h.operand (lower_growing L r) (fun _ => lowerNode_growing _ _ _)
      (lower r (hchildren r (by simp [Node.children]))) fun b hb =>
      h.node hroot rfl (by simp [ha, hb])
  | .call _ m args, hn => by
    obtain ⟨hchildren, hroot⟩ := Node.forall_postorder.mp hn
    rw [Lowering.lower, Node.postorder]
    exact h.bind (lowerArgs_growing L args) (fun _ => lowerNode_growing _ _ _)
      (lowerArgs args hchildren) fun regs hregs => h.node hroot hregs.1 hregs.2

theorem lowerArgs : ∀ ns : List Node, (∀ n ∈ ns, ∀ k ∈ n.postorder, ok k) →
    P (L.lowerArgs ns) (Node.postorderList ns) fun regs =>
      regs.length = ns.length ∧ ∀ r ∈ regs, V r
  | [], _ => by
    rw [Lowering.lowerArgs, Node.postorderList]
    exact h.pure ⟨rfl, by simp⟩
  | n :: ns, hns => by
    rw [Lowering.lowerArgs, Node.postorderList, ← List.append_nil (Node.postorderList ns)]
    refine h.operand (lower_growing L n) (fun _ => (lowerArgs_growing L ns).bind fun _ => .pure _)
      (lower n (hns n (by simp))) fun r hr => ?_
    exact h.bind (lowerArgs_growing L ns) (fun _ => .pure _)
      (lowerArgs ns fun k hk => hns k (by simp [hk])) fun rs hrs =>
      h.pure ⟨by simp [hrs.1], List.forall_mem_cons.mpr ⟨hr, hrs.2⟩⟩

end

theorem lowerRoots {ns : List Node} (hns : ∀ n ∈ ns, ∀ k ∈ n.postorder, ok k) :
    P (L.lowerRoots ns) (ns.flatMap Node.postorder) fun _ => True := by
  induction ns with
  | nil => exact h.pure trivial
  | cons n ns ih =>
    exact h.bind (lower_growing L n) (fun _ => lowerRoots_growing L ns) (h.lower n (hns n (by simp)))
      fun _ _ => ih fun k hk => hns k (by simp [hk])

end Judges

end SpuCompiler.Selection.Lowering
