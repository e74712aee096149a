import SpuCompiler.Proofs.Program.Runs

/-!
Words of a placed program. Selection gives every instruction a constant and registers that have
room in its word, as long as no type that is moved as a whole, no number of an intrinsic, no frame
and no result register is too large for it; placement keeps that. Selection itself does not look
at these sizes.
-/

namespace SpuCompiler.Selection

open Machine Metadata Bytecode Trees Objects

/-! ## Code before placement -/

/-- The instruction has a word, or is a return, which placement replaces. -/
def Encodable (i : Instr) : Prop := i.opcode = .ret ∨ i.Fits

theorem Encodable.resolveTarget {i : Instr} (h : Encodable i) (body : Array ObjectId) :
    Encodable (resolveTarget body i) := by
  have hsame : ∀ t, Encodable { i with target := t } := fun t =>
    h.imp id fun hfits => ⟨hfits.admits, hfits.registers, hfits.real⟩
  unfold Selection.resolveTarget
  split
  · split
    · exact hsame _
    · exact h
  · exact h

theorem fits_withTarget {op : Machine.Opcode} {r : Option Register} (target : Target)
    (hadmits : op.Admits 0) (hop : op ≠ .ret) (hr : ∀ x, r = some x → x.Valid) :
    (Instr.withTarget op r target).Fits := by
  refine ⟨hadmits, ?_, hop⟩
  intro x hx
  cases r with
  | none => simp [Instr.withTarget, Instr.registers] at hx
  | some y =>
    obtain rfl : x = y := by simpa [Instr.withTarget, Instr.registers] using hx
    exact hr x rfl

theorem NodeCode.encodable {arena : Arena} {n : Node} {code : List Instr}
    (h : NodeCode True arena n code) : ∀ i ∈ code, Encodable i := by
  have hplain : ∀ {names : Nat → Prop} {is : List Instr}, (∀ i ∈ is, Plain True names i) →
      ∀ i ∈ is, Encodable i := fun h i hi => .inr ((h i hi).2 trivial)
  cases h with
  | straight _ _ _ _ hcode => exact hplain hcode
  | access _ _ _ hcode => exact hplain hcode.plain
  | jump _ _ hpre hop hcondition =>
    intro i hi
    rcases List.mem_append.mp hi with hi | hi
    · exact hplain hpre i hi
    · obtain rfl := List.mem_singleton.mp hi
      rcases hop with rfl | rfl | rfl <;>
        exact .inr (fits_withTarget _ (by decide) (by decide) hcondition)
  | ret _ hpre =>
    intro i hi
    rcases List.mem_append.mp hi with hi | hi
    · exact hplain hpre i hi
    · obtain rfl := List.mem_singleton.mp hi
      exact .inl rfl
  | call _ _ _ hpre hpost =>
    intro i hi
    rcases List.mem_append.mp hi with hi | hi
    · exact hplain hpre i hi
    · rcases List.mem_cons.mp hi with rfl | hi
      · refine .inr (fits_withTarget _ (by decide) (by decide) ?_)
        rintro _ ⟨⟩
        exact Frame.valid_lr
      · exact hplain hpost i hi

theorem NodesCode.encodable {arena : Arena} {ns : List Node} {code : List Instr}
    (h : NodesCode True arena ns code) : ∀ i ∈ code, Encodable i := by
  induction h with
  | nil =>
    intro i hi
    cases hi
  | cons hn _ ih =>
    intro i hi
    rcases List.mem_append.mp hi with hi | hi
    · exact hn.encodable i hi
    · exact ih i hi

theorem Frame.fits_returnBranch : Frame.returnBranch.Fits := by
  refine ⟨by decide, ?_, by decide⟩
  intro r hr
  obtain rfl : r = .lr := by simpa [Frame.returnBranch, Instr.registers] using hr
  exact Frame.valid_lr

theorem RoutineCode.encodable {arena : Arena} {r : Routine} {s : SelectedRoutine}
    (h : RoutineCode True arena r s) : ∀ b ∈ s.allBlocks, ∀ i ∈ b.code, Encodable i := by
  intro b hb i hi
  simp only [SelectedRoutine.allBlocks, List.cons_append, List.mem_cons, List.mem_append,
    List.not_mem_nil, or_false] at hb
  rcases hb with rfl | hb | rfl
  · exact .inr ((h.prologue i hi).2 trivial)
  · obtain ⟨k, hk, rfl⟩ := List.mem_iff_getElem.mp hb
    have hk' : k < r.blocks.toList.length := h.blocks.length_eq ▸ hk
    obtain ⟨code, hcode, hnodes⟩ := (List.forall₂_iff_get.mp h.blocks).2 k hk' hk
    rw [← Array.mem_toList_iff] at hi
    obtain ⟨i', hi', rfl⟩ := List.mem_map.mp (hcode ▸ hi)
    exact (hnodes.encodable i' hi').resolveTarget _
  · obtain ⟨pre, hcode, hpre⟩ := h.epilogue
    rw [← Array.mem_toList_iff, hcode] at hi
    rcases List.mem_append.mp hi with hi | hi
    · exact .inr ((hpre i hi).2 trivial)
    · obtain rfl := List.mem_singleton.mp hi
      exact .inr Frame.fits_returnBranch

/-! ## Code after placement -/

theorem Encodable.settles {image : Image} {epilogue : Option ObjectId} {source : Nat}
    {i i' j : Instr} (h : Encodable i) (hi : Resolves epilogue i i')
    (hj : image.Settles source i' j) : j.Fits := by
  have hfits : i'.Fits := by
    rcases h with hret | hfits
    · obtain ⟨e, -, rfl⟩ := hi.returns hret
      exact fits_withTarget _ (by decide) (by decide) nofun
    · rw [hi.same hfits.real]
      exact hfits
  cases hj with
  | same => exact hfits
  | patched _ _ hk _ hwrites => exact ⟨hwrites.admits hk, hfits.registers, hfits.real⟩

end SpuCompiler.Selection

namespace SpuCompiler

open Machine Metadata Trees Objects Selection

/-- The frame and the nodes of a routine have room in the words of its code. -/
structure CompiledRoutine.Fits (o : Options) (c : CompiledRoutine) : Prop where
  frame : c.selected.frame.size < 2 ^ 31
  nodes : ∀ b ∈ c.tree.blocks, ∀ n ∈ b.roots.toList.flatMap Node.postorder, NodeFits o n

instance (o : Options) (c : CompiledRoutine) : Decidable (c.Fits o) :=
  decidable_of_iff (c.selected.frame.size < 2 ^ 31 ∧
      ∀ b ∈ c.tree.blocks, ∀ n ∈ b.roots.toList.flatMap Node.postorder, NodeFits o n)
    ⟨fun h => ⟨h.1, h.2⟩, fun h => ⟨h.frame, h.nodes⟩⟩

/-- Every instruction of a placed program has a word. -/
theorem Sound.fits {o : Options} {p : Program} {image : Image} (h : Sound o p)
    (hfinish : p.finish = .ok image) (hfits : ∀ c ∈ p.routines, c.Fits o) :
    ∀ x ∈ image.objects, ∀ r, x.kind = .block r → ∀ i ∈ x.code, i.Fits := by
  intro x hx r hk j hj
  obtain ⟨c, hc, b, hb, hid⟩ := h.exists_selected hfinish hx hk
  have hcode := (h.installed c hc).lowered True (fun _ => (hfits c hc).frame)
    fun _ => (hfits c hc).nodes
  obtain ⟨-, x', hx', -, -, hsize, hplaced⟩ := h.placed hfinish hc hb
  obtain rfl : x = x' := Option.some.inj (hid.symm.trans hx')
  obtain ⟨k, hk, rfl⟩ := Array.mem_iff_getElem.mp hj
  have hk' : k < b.code.size := hsize ▸ hk
  obtain ⟨i, hresolves, hsettles⟩ :=
    hplaced k _ _ (Array.getElem?_eq_getElem hk') (Array.getElem?_eq_getElem hk)
  exact (hcode.encodable b hb _ (Array.getElem_mem hk')).settles hresolves hsettles

/-- However a program came about, once it is placed every instruction has a constant in range,
registers below 128 and a real opcode, and the image has bytes for every choice of hardware
registers, if the frames and the nodes of its routines have room in the words. -/
theorem finish_encodes {o : Options} {p : Program} {image : Image} (hp : p.Reached o)
    (hfinish : p.finish = .ok image) (hfits : ∀ c ∈ p.routines, c.Fits o) :
    (∀ x ∈ image.objects, ∀ r, x.kind = .block r → ∀ i ∈ x.code, i.Fits) ∧
      ∀ map : RegisterMap, (∀ n, ∃ k ≤ 127, map n = some k) →
        ∃ out, image.toBytes map = .ok out := by
  have hcode := hp.sound.fits hfinish hfits
  refine ⟨hcode, fun map hmap => ?_⟩
  have hencode : ∀ x ∈ image.objects, ∀ r, x.kind = .block r → ∀ i ∈ x.code,
      ∃ w, i.encode map = .ok w :=
    fun x hx r hk i hi => (hcode x hx r hk i hi).encode_ok hmap
  obtain ⟨out, hout, -⟩ := (hp.sound.arranges hfinish).shows hencode
  exact ⟨out, hout⟩

def callFirst : Body := { code := [0x28, 0x01, 0x00, 0x00, 0x06, 0x2A] }

def mainMethod : Method := { name := "Main" }

def stopTable (signal : Nat) : TokenTable :=
  .of [.method { name := "Stop", intrinsic := some (.stop signal) }]

def stopping (signal : Nat) : Except CompileError CompiledRoutine × Program :=
  ({} : Program).compile mainMethod callFirst (stopTable signal).resolver

/-- The largest signal has a word. -/
theorem stopping_encodes : ∃ c image, (stopping 0x3FFF).1 = .ok c ∧
    (stopping 0x3FFF).2.finish = .ok image ∧
      ∀ map : RegisterMap, (∀ n, ∃ k ≤ 127, map n = some k) →
        ∃ out, image.toBytes map = .ok out := by
  have hcompiled : (stopping 0x3FFF).1.isOk = true := by decide +kernel
  have hplaced : (stopping 0x3FFF).2.finish.isOk = true := by decide +kernel
  cases hc : (stopping 0x3FFF).1 with
  | error e => simp [hc, Except.isOk, Except.toBool] at hcompiled
  | ok c =>
    cases himage : (stopping 0x3FFF).2.finish with
    | error e => simp [himage, Except.isOk, Except.toBool] at hplaced
    | ok image =>
      have hreached : (stopping 0x3FFF).2.Reached {} := .compile _ _ _ (.new rfl)
      exact ⟨c, image, rfl, rfl, (finish_encodes hreached himage (by decide +kernel)).2⟩

/-- The next one is compiled and placed all the same, and fails only when the bytes are made. -/
theorem stopping_not_encoded : ∃ c image, (stopping 0x4000).1 = .ok c ∧
    (stopping 0x4000).2.finish = .ok image ∧
      image.toBytes (fun n => some (n % 128)) =
        .error (.encode "Main#IL_0000" 0 (.immediateOutOfRange "stop" 0x4000)) := by
  have hcompiled : (stopping 0x4000).1.isOk = true := by decide +kernel
  have hbytes : (stopping 0x4000).2.finish.toOption.map (·.toBytes fun n => some (n % 128)) =
      some (.error (.encode "Main#IL_0000" 0 (.immediateOutOfRange "stop" 0x4000))) := by
    decide +kernel
  cases hc : (stopping 0x4000).1 with
  | error e => simp [hc, Except.isOk, Except.toBool] at hcompiled
  | ok c =>
    cases himage : (stopping 0x4000).2.finish with
    | error e => simp [himage, Except.toOption] at hbytes
    | ok image =>
      rw [himage] at hbytes
      exact ⟨c, image, rfl, rfl, Option.some.inj hbytes⟩

end SpuCompiler
