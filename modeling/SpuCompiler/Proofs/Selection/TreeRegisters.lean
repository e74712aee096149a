import SpuCompiler.Proofs.Selection.NodeRegisters
import SpuCompiler.Proofs.Trees.TypedNodes

/-!
The code of trees sets fresh registers. Operands of a node have values, so each has a register that
the code before the node sets or that belongs to a variable, and none is made up for it. By
induction over the tree, lowering without an error gives a register wherever a node has a value.
-/

namespace SpuCompiler.Selection

open Machine Metadata Bytecode Trees Objects

variable {vars start : Nat} {known : List Register} {α β : Type}

/-- The node is as lowering needs it: its operands are values, and it calls no method that
promises a value which the machine does not give. -/
structure Sound (vs : Variables) (blocks : Nat) (n : Node) : Prop where
  wellFormed : n.WellFormed vs blocks
  operands : ∀ c ∈ n.children, c.Pushes
  truthful : ∀ m, n.callee? = some m → m.Truthful

def AllSound (vs : Variables) (blocks : Nat) (n : Node) : Prop :=
  ∀ k ∈ n.postorder, Sound vs blocks k

/-- Where the given registers are available and lowering makes no error, it sets fresh registers
only, and its result satisfies the condition. -/
def Allots (vars start : Nat) (known : List Register) (m : LowerM α)
    (results : α → List Register) (Q : α → Prop) : Prop :=
  ∀ p p' x, m.run p = (x, p') → p'.errors.size ≤ p.errors.size → start ≤ p.stream.next →
    (∀ r ∈ known, Available vars start p.stream.next r) →
    Extends vars start known p.stream p'.stream (results x) ∧ Q x

namespace Allots

theorem pure {x : α} {results : α → List Register} {Q : α → Prop}
    (h : ∀ r ∈ results x, Given known r) (hQ : Q x) :
    Allots vars start known (pure x) results Q := by
  rintro p _ _ ⟨⟩ - - -
  exact ⟨.refl h, hQ⟩

theorem bind {m : LowerM α} {f : α → LowerM β} {results : α → List Register}
    {results' : β → List Register} {P : α → Prop} {Q : β → Prop}
    (hm : Allots vars start known m results P)
    (hf : ∀ x, P x → Allots vars start (results x ++ known) (f x) results' Q) (hgm : Growing m)
    (hgf : ∀ x, Growing (f x)) : Allots vars start known (m >>= f) results' Q := by
  intro p p' y hrun herr hstart hknown
  obtain ⟨x, q, hrun₁, hrun₂, herr₁, herr₂⟩ := hgm.run_bind hgf hrun herr
  obtain ⟨hfirst, hx⟩ := hm p q x hrun₁ herr₁ hstart hknown
  obtain ⟨hrest, hy⟩ := hf x hx q p' y hrun₂ herr₂ (hstart.trans hfirst.le)
    (hfirst.available hstart hknown)
  exact ⟨hfirst.trans hrest, hy⟩

/-- Lowering with no registers given, seen from where it starts. -/
theorem run {m : LowerM α} {results : α → List Register} {Q : α → Prop} {p p' : Progress} {x : α}
    (h : Allots vars p.stream.next [] m results Q) (hrun : m.run p = (x, p'))
    (herr : p'.errors.size ≤ p.errors.size) :
    Extends vars p.stream.next [] p.stream p'.stream (results x) ∧ Q x :=
  h p p' x hrun herr le_rfl (by simp)

end Allots

namespace Lowering

variable {L : Lowering} {vs : Variables} {blocks : Nat} {n : Node} {regs : List Register}

/-- A value has its register already. -/
theorem orFresh_allots {o : Option Register} (hsome : o.isSome = true)
    (hgiven : ∀ r ∈ o.toList, Given known r) :
    Allots vars start known (orFresh o) ([·]) fun _ => True := by
  obtain ⟨r, rfl⟩ := Option.isSome_iff_exists.mp hsome
  exact .pure (by simpa using hgiven) trivial

theorem loadWide_allots (n : Node) (bits : BitVec 64) :
    Allots vars start known (L.loadWide n bits) Option.toList fun o => o.isSome = true := by
  intro p p' o hrun herr hstart hknown
  rcases loadWide_cases hrun with ⟨hmore, -⟩ | ⟨name, id, r, -, -, rfl, hstream⟩
  · omega
  · have hlqr : Emits vars start known (Emit.targeted .lqr (.object id)) ([·]) :=
      Emit.targeted_emits rfl _
    have hextends := hlqr p.stream hstart hknown
    rw [hstream] at hextends
    exact ⟨hextends, rfl⟩

theorem lowerNode_allots (hn : Sound vs blocks n) (hplaces : Places vs L.vars)
    (hstores : Stores vars L.vars) (hregs : ∀ r ∈ regs, Given known r) :
    Allots vars start known (L.lowerNode n regs) Option.toList fun o => n.Pushes → o.isSome = true := by
  intro p p' o hrun herr hstart hknown
  rcases lowerNode_cases hrun herr with ⟨bits, -, hrun⟩ | ⟨e, he, hemit⟩
  · obtain ⟨hextends, hsome⟩ := loadWide_allots _ _ p p' o hrun herr hstart hknown
    exact ⟨hextends, fun _ => hsome⟩
  · cases hemit
    obtain ⟨hemits, hvalue⟩ := Code.of_emits hn.wellFormed hplaces hstores hregs hn.truthful e he
    exact ⟨hemits p.stream hstart hknown, fun hv => hvalue hv p.stream⟩

/-- An operand is lowered before what uses its register. -/
theorem operand_allots {c : Node} {f : Register → LowerM α} {results : α → List Register}
    {Q : α → Prop} (hpushes : c.Pushes)
    (hc : Allots vars start known (L.lower c) Option.toList fun o => c.Pushes → o.isSome = true)
    (hf : ∀ (o : Option Register) (a : Register),
      Allots vars start (a :: (o.toList ++ known)) (f a) results Q) (hgf : ∀ a, Growing (f a)) :
    Allots vars start known (L.lower c >>= fun o => orFresh o >>= f) results Q := by
  refine hc.bind (fun o ho => ?_) (lower_growing L c) fun o => (orFresh_growing o).bind hgf
  exact (orFresh_allots (ho hpushes) (by simp_all)).bind (fun a _ => hf o a) (orFresh_growing o) hgf

mutual

theorem lower_allots (hplaces : Places vs L.vars) (hstores : Stores vars L.vars)
    {known : List Register} : ∀ n : Node, AllSound vs blocks n →
      Allots vars start known (L.lower n) Option.toList fun o => n.Pushes → o.isSome = true
  | .leaf h, hn => by
    rw [lower]
    exact lowerNode_allots (Node.forall_postorder.mp hn).2 hplaces hstores (by simp)
  | .unary h l, hn => by
    obtain ⟨hchildren, hroot⟩ := Node.forall_postorder.mp hn
    have hl : l ∈ (Node.unary h l).children := by simp [Node.children]
    rw [lower]
    exact operand_allots (hroot.operands l hl) (lower_allots hplaces hstores l (hchildren l hl))
      (fun _ a => lowerNode_allots hroot hplaces hstores (by simp))
      fun a => lowerNode_growing _ _ _
  | .rightOnly h r, hn => by
    obtain ⟨hchildren, hroot⟩ := Node.forall_postorder.mp hn
    have hr : r ∈ (Node.rightOnly h r).children := by simp [Node.children]
    rw [lower]
    exact operand_allots (hroot.operands r hr) (lower_allots hplaces hstores r (hchildren r hr))
      (fun _ a => lowerNode_allots hroot hplaces hstores (by simp))
      fun a => lowerNode_growing _ _ _
  | .binary h l r, hn => by
    obtain ⟨hchildren, hroot⟩ := Node.forall_postorder.mp hn
    have hl : l ∈ (Node.binary h l r).children := by simp [Node.children]
    have hr : r ∈ (Node.binary h l r).children := by simp [Node.children]
    rw [lower]
    refine operand_allots (hroot.operands l hl) (lower_allots hplaces hstores l (hchildren l hl))
      (fun _ a => ?_) fun a => (lower_growing L r).bind fun o => (orFresh_growing o).bind fun b =>
        lowerNode_growing _ _ _
    exact operand_allots (hroot.operands r hr) (lower_allots hplaces hstores r (hchildren r hr))
      (fun _ b => lowerNode_allots hroot hplaces hstores (by simp))
      fun b => lowerNode_growing _ _ _
  | .call h m args, hn => by
    obtain ⟨hchildren, hroot⟩ := Node.forall_postorder.mp hn
    rw [lower]
    refine (lowerArgs_allots hplaces hstores args hchildren hroot.operands).bind (fun regs _ => ?_)
      (lowerArgs_growing L args) fun _ => lowerNode_growing _ _ _
    exact lowerNode_allots hroot hplaces hstores fun r hr => .inr (List.mem_append_left _ hr)

theorem lowerArgs_allots (hplaces : Places vs L.vars) (hstores : Stores vars L.vars)
    {known : List Register} : ∀ ns : List Node, (∀ n ∈ ns, AllSound vs blocks n) →
      (∀ n ∈ ns, n.Pushes) → Allots vars start known (L.lowerArgs ns) id fun _ => True
  | [], _, _ => by
    rw [lowerArgs]
    exact .pure (by simp) trivial
  | n :: ns, hns, hpushes => by
    rw [lowerArgs]
    refine operand_allots (hpushes n (by simp)) (lower_allots hplaces hstores n (hns n (by simp)))
      (fun _ r => ?_) fun r => (lowerArgs_growing L ns).bind fun _ => .pure _
    refine (lowerArgs_allots hplaces hstores ns (fun k hk => hns k (by simp [hk]))
      fun k hk => hpushes k (by simp [hk])).bind (fun rs _ => .pure ?_ trivial)
      (lowerArgs_growing L ns) fun _ => .pure _
    intro x hx
    rcases List.mem_cons.mp hx with rfl | hx
    · simp
    · exact given_append.mpr (.inl hx)

end

theorem lowerRoots_allots (hplaces : Places vs L.vars) (hstores : Stores vars L.vars)
    {ns : List Node} (hns : ∀ n ∈ ns, AllSound vs blocks n) :
    Allots vars start known (L.lowerRoots ns) (fun _ => []) fun _ => True := by
  induction ns generalizing known with
  | nil => exact .pure (by simp) trivial
  | cons n ns ih =>
    exact (lower_allots hplaces hstores n (hns n (by simp))).bind
      (fun _ _ => ih fun k hk => hns k (by simp [hk])) (lower_growing L n)
      fun _ => lowerRoots_growing L ns

end Lowering

/-! ## Blocks -/

/-- Blocks of code, one after the other, each setting the fresh registers that follow those of the
block before it. -/
inductive BlocksAssign (vars : Nat) : Nat → List (List Instr) → Nat → Prop
  | nil (n : Nat) : BlocksAssign vars n [] n
  | cons {n n' n'' : Nat} {code : List Instr} {codes : List (List Instr)} :
      Assigns vars n n code n' → BlocksAssign vars n' codes n'' →
      BlocksAssign vars n (code :: codes) n''

namespace BlocksAssign

variable {n n' n'' : Nat} {codes codes' : List (List Instr)}

theorem append (h : BlocksAssign vars n codes n') (h' : BlocksAssign vars n' codes' n'') :
    BlocksAssign vars n (codes ++ codes') n'' := by
  induction h with
  | nil n => exact h'
  | cons hcode _ ih => exact .cons hcode (ih h')

theorem le (h : BlocksAssign vars n codes n') : n ≤ n' := by
  induction h with
  | nil n => exact le_rfl
  | cons hcode _ ih => exact hcode.le.trans ih

/-- Every register of a block is one of the machine, of a variable, or set since the first block. -/
theorem available (h : BlocksAssign vars n codes n') :
    ∀ code ∈ codes, ∀ i ∈ code, ∀ r ∈ i.registers, Available vars n n' r := by
  induction h with
  | nil n => simp
  | @cons n n' n'' code codes hcode hrest ih =>
    intro c hc i hi r hr
    rcases List.mem_cons.mp hc with rfl | hc
    · exact (hcode.available le_rfl i hi r hr).mono hrest.le
    · have hlater := ih c hc i hi r hr
      cases r with
      | hardware k => trivial
      | «virtual» k =>
        have hle := hcode.le
        rcases hlater with hvar | ⟨hk, hk'⟩
        · exact .inl hvar
        · exact .inr ⟨by omega, hk'⟩

/-- A fresh register is defined in one block and appears in no other. -/
theorem exists_defined (h : BlocksAssign vars n codes n') (hvars : vars ≤ n) {k : Nat} (hk : n ≤ k)
    (hk' : k < n') : ∃ j code, codes[j]? = some code ∧ Defined code k ∧
      ∀ (j' : Nat) (code' : List Instr), codes[j']? = some code' →
        ∀ i ∈ code', .virtual k ∈ i.registers → j' = j := by
  induction h with
  | nil n => omega
  | @cons n m n'' code codes hcode hrest ih =>
    have hle := hcode.le
    by_cases hlt : k < m
    · refine ⟨0, code, rfl, hcode.defined hvars le_rfl hk hlt, ?_⟩
      intro j' code' hj' i hi hmem
      cases j' with
      | zero => rfl
      | succ j' =>
        rcases hrest.available code' (List.mem_of_getElem? hj') i hi _ hmem with hvar | ⟨hle', -⟩
        · omega
        · omega
    · obtain ⟨j, code', hj, hdefined, honly⟩ := ih (by omega) (by omega) hk'
      refine ⟨j + 1, code', hj, hdefined, ?_⟩
      intro j' code'' hj' i hi hmem
      cases j' with
      | zero =>
        cases hj'
        rcases hcode.available le_rfl i hi _ hmem with hvar | ⟨-, hlt'⟩
        · omega
        · omega
      | succ j' => rw [honly j' code'' hj' i hi hmem]

end BlocksAssign

/-- Each block of trees gives a block of code that sets registers of its own. -/
theorem Lowering.lowerBlocks_assign {L : Lowering} {vs : Variables} {blocks : Nat}
    (hplaces : Places vs L.vars) (hstores : Stores vars L.vars) {bs : List Block}
    (hbs : ∀ b ∈ bs, ∀ n ∈ b.roots, AllSound vs blocks n) {p p' : Progress}
    {codes : List (Array Instr)} (hrun : (L.lowerBlocks bs).run p = (codes, p'))
    (hstart : p.stream.code = #[]) (herr : p'.errors.size ≤ p.errors.size) :
    codes.length = bs.length ∧ p'.stream.code = #[] ∧
      BlocksAssign vars p.stream.next (codes.map Array.toList) p'.stream.next := by
  induction bs generalizing p codes with
  | nil =>
    cases hrun
    exact ⟨rfl, hstart, .nil _⟩
  | cons b bs ih =>
    obtain ⟨q, codes', hrun₁, hrun₂, rfl, herr₁, herr₂⟩ := lowerBlocks_cons hrun herr
    obtain ⟨hextends, -⟩ := (lowerRoots_allots hplaces hstores fun n hn =>
      hbs b (by simp) n (by simpa using hn)).run hrun₁ herr₁
    obtain ⟨hlength, hend, hrest⟩ := ih (fun c hc => hbs c (by simp [hc])) hrun₂ rfl herr₂
    obtain ⟨code, hcode, hassigns⟩ := hextends.code
    refine ⟨by simp [hlength], hend, .cons ?_ hrest⟩
    simpa [hcode, hstart] using hassigns

end SpuCompiler.Selection
