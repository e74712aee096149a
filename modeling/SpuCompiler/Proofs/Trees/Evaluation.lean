import SpuCompiler.Proofs.Trees.Machines

/-!
Values of trees. A tree depends on the store only through the variables that it mentions, and a
node that is made of what was popped has the value of its operation on the popped values.
-/

namespace SpuCompiler.Trees

open Metadata Bytecode

namespace Node

variable {n : Node}

theorem sizeOf_child {c : Node} (h : c ∈ n.children) : sizeOf c < sizeOf n := by
  cases n with
  | leaf head => cases h
  | unary head l =>
    obtain rfl : c = l := by simpa [children] using h
    simp only [unary.sizeOf_spec]
    omega
  | rightOnly head r =>
    obtain rfl : c = r := by simpa [children] using h
    simp only [rightOnly.sizeOf_spec]
    omega
  | binary head l r =>
    have hc : c = l ∨ c = r := by simpa [children] using h
    simp only [binary.sizeOf_spec]
    rcases hc with rfl | rfl <;> omega
  | call head m args =>
    have := List.sizeOf_lt_of_mem (show c ∈ args from h)
    simp only [call.sizeOf_spec]
    omega

/-- What holds of a node whenever it holds of its children holds of all nodes. -/
theorem induction_children {P : Node → Prop} (h : ∀ n, (∀ c ∈ n.children, P c) → P n) (n : Node) :
    P n :=
  h n fun c hc =>
    have := sizeOf_child hc
    induction_children h c
termination_by sizeOf n

inductive Mentions (id : Nat) : Node → Prop
  | here {n : Node} : n.varId? = some id → Mentions id n
  | child {n c : Node} : c ∈ n.children → Mentions id c → Mentions id n

theorem mentions_iff {id : Nat} :
    n.Mentions id ↔ n.varId? = some id ∨ ∃ c ∈ n.children, c.Mentions id := by
  constructor
  · rintro (h | ⟨hc, h⟩)
    · exact .inl h
    · exact .inr ⟨_, hc, h⟩
  · rintro (h | ⟨c, hc, h⟩)
    · exact .here h
    · exact .child hc h

end Node

def Builder.Entry.node : Builder.Entry → Node
  | .carried id => Builder.loadNode id 0 .void
  | .tree n => n

namespace Builder

variable {id : Nat}

theorem mentions_loadNode {offset x : Nat} {t : StackType} :
    (loadNode id offset t).Mentions x ↔ x = id := by
  rw [Node.mentions_iff]
  simp [loadNode, Node.varId?, Node.operand, Node.head, Node.children, eq_comm]

theorem Entry.Yields.mentions_iff {e : Entry} {n : Node} (h : e.Yields n) :
    n.Mentions id ↔ e.node.Mentions id := by
  cases h with
  | tree n => rfl
  | carried id offset t => simp only [Entry.node, mentions_loadNode]

end Builder

namespace TreeMachine

variable {V S : Type} (M : Meaning V S) (roles : Roles) (store : Nat → Option V)
variable {ns : List Node} {s s' : S} {vs : List V} {n : Node}

theorem eval_eq (n : Node) (s : S) :
    eval M roles store n s =
      (evalList M roles store n.children s).bind fun p => apply M roles store n.head p.1 p.2 := by
  cases n with
  | leaf h => simp [eval, evalList, Node.children, Node.head]
  | unary h l =>
    simp only [eval, evalList, Node.children, Node.head]
    cases eval M roles store l s <;> rfl
  | rightOnly h r =>
    simp only [eval, evalList, Node.children, Node.head]
    cases eval M roles store r s <;> rfl
  | binary h l r =>
    simp only [eval, evalList, Node.children, Node.head]
    cases eval M roles store l s with
    | none => rfl
    | some p =>
      simp only [Option.bind_eq_bind, Option.bind_some]
      cases eval M roles store r p.2 <;> rfl
  | call h m args =>
    simp only [eval, Node.children, Node.head]
    cases evalList M roles store args s <;> rfl

theorem evalList_append (ns ns' : List Node) (s : S) :
    evalList M roles store (ns ++ ns') s =
      (evalList M roles store ns s).bind fun p =>
        (evalList M roles store ns' p.2).map fun q => (p.1 ++ q.1, q.2) := by
  induction ns generalizing s with
  | nil =>
    simp only [List.nil_append, evalList, Option.bind_some]
    cases evalList M roles store ns' s <;> rfl
  | cons n ns ih =>
    simp only [List.cons_append, evalList]
    cases eval M roles store n s with
    | none => rfl
    | some p =>
      simp only [Option.bind_eq_bind, Option.bind_some, ih]
      cases evalList M roles store ns p.2 with
      | none => rfl
      | some q =>
        simp only [Option.pure_def, Option.bind_some]
        cases evalList M roles store ns' q.2 <;> rfl

/-- Values of trees one after the other are values of two lists of trees. -/
theorem evalList_append_eq_some {ns' : List Node} :
    evalList M roles store (ns ++ ns') s = some (vs, s') ↔
      ∃ xs s1 ys, evalList M roles store ns s = some (xs, s1) ∧
        evalList M roles store ns' s1 = some (ys, s') ∧ vs = xs ++ ys := by
  rw [evalList_append]
  constructor
  · intro h
    obtain ⟨⟨xs, s1⟩, hx, h⟩ := Option.bind_eq_some_iff.mp h
    obtain ⟨⟨ys, s2⟩, hy, h⟩ := Option.map_eq_some_iff.mp h
    cases h
    exact ⟨xs, s1, ys, hx, hy, rfl⟩
  · rintro ⟨xs, s1, ys, hx, hy, rfl⟩
    simp [hx, hy]

theorem evalList_length (h : evalList M roles store ns s = some (vs, s')) :
    vs.length = ns.length := by
  induction ns generalizing s vs with
  | nil =>
    cases h
    rfl
  | cons n ns ih =>
    obtain ⟨⟨v, s1⟩, -, h⟩ := Option.bind_eq_some_iff.mp h
    obtain ⟨⟨vs', s2⟩, hvs, h⟩ := Option.bind_eq_some_iff.mp h
    cases h
    simp [ih hvs]

theorem evalList_cons_eq_some :
    evalList M roles store (n :: ns) s = some (vs, s') ↔
      ∃ v s1 vs', eval M roles store n s = some (v, s1) ∧
        evalList M roles store ns s1 = some (vs', s') ∧ vs = v :: vs' := by
  constructor
  · intro h
    obtain ⟨⟨v, s1⟩, hv, h⟩ := Option.bind_eq_some_iff.mp h
    obtain ⟨⟨vs', s2⟩, hvs, h⟩ := Option.bind_eq_some_iff.mp h
    cases h
    exact ⟨v, s1, vs', hv, hvs, rfl⟩
  · rintro ⟨v, s1, vs', hv, hvs, rfl⟩
    simp [evalList, hv, hvs]

/-! ## Dependence on the store -/

variable {M roles store} {store' : Nat → Option V}

theorem synthetic?_eq_some {o : Operand Ref} {id : Nat} (h : synthetic? roles o = some id) :
    o = .ref (.variable id) := by
  unfold synthetic? at h
  split at h
  · split at h
    · cases h
      rfl
    · cases h
  · cases h

theorem apply_congr {h : Head} (hs : ∀ id, h.operand = .ref (.variable id) → store id = store' id)
    (values : List V) (s : S) :
    apply M roles store h values s = apply M roles store' h values s := by
  unfold apply
  split
  · rename_i id hid
    rw [hs id (synthetic?_eq_some hid)]
  · rfl

theorem evalList_congr_of_eval (h : ∀ n ∈ ns, ∀ s, eval M roles store n s = eval M roles store' n s)
    (s : S) : evalList M roles store ns s = evalList M roles store' ns s := by
  induction ns generalizing s with
  | nil => rfl
  | cons n ns ih =>
    simp only [evalList, h n (by simp)]
    cases eval M roles store' n s with
    | none => rfl
    | some p =>
      simp only [Option.bind_eq_bind, Option.bind_some]
      rw [ih fun n hn => h n (by simp [hn])]

/-- A tree has the same value in stores that agree on the variables it mentions. -/
theorem eval_congr (h : ∀ id, n.Mentions id → store id = store' id) (s : S) :
    eval M roles store n s = eval M roles store' n s := by
  induction n using Node.induction_children generalizing s with
  | h n ih =>
    have hchildren : ∀ s, evalList M roles store n.children s =
        evalList M roles store' n.children s :=
      evalList_congr_of_eval fun c hc => ih c hc fun id hid => h id (.child hc hid)
    have hhead : ∀ vs s, apply M roles store n.head vs s = apply M roles store' n.head vs s := by
      refine apply_congr ?_
      intro id hid
      exact h id (.here (by simp [Node.varId?, Node.operand, hid]))
    simp only [eval_eq, hchildren, hhead]

theorem evalList_congr (h : ∀ n ∈ ns, ∀ id, n.Mentions id → store id = store' id) (s : S) :
    evalList M roles store ns s = evalList M roles store' ns s :=
  evalList_congr_of_eval (fun n hn => eval_congr (h n hn)) s

end TreeMachine

end SpuCompiler.Trees
