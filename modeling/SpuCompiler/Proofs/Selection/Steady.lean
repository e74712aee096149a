import SpuCompiler.Proofs.Objects.Naming
import SpuCompiler.Selection.Arithmetic

/-!
Fragments with names in the place of numbers of objects. A fragment that refers to no object does
the same whatever the names are.
-/

namespace SpuCompiler.Selection

open Machine Metadata Bytecode Trees Objects

variable {names names' : ObjectId → Option String}

/-- The same streams, with names in the place of numbers. -/
structure SameStream (names names' : ObjectId → Option String) (s t : Stream) : Prop where
  next : s.next = t.next
  code : nameCode names s.code = nameCode names' t.code

def Alike {α : Type} (names names' : ObjectId → Option String) (e e' : Emit α) : Prop :=
  ∀ s t, SameStream names names' s t →
    (e.run s).1 = (e'.run t).1 ∧ SameStream names names' (e.run s).2 (e'.run t).2

namespace Alike

variable {α β : Type}

theorem pure (x : α) : Alike names names' (pure x) (pure x) := fun _ _ h => ⟨rfl, h⟩

theorem bind {e e' : Emit α} {f f' : α → Emit β} (he : Alike names names' e e')
    (hf : ∀ x, Alike names names' (f x) (f' x)) : Alike names names' (e >>= f) (e' >>= f') := by
  intro s t h
  obtain ⟨hx, hst⟩ := he s t h
  rw [StateT.run_bind, StateT.run_bind]
  change (StateT.run (f (e.run s).1) (e.run s).2).1 = _ ∧
    SameStream names names' (StateT.run (f (e.run s).1) (e.run s).2).2 _
  rw [hx]
  exact hf _ _ _ hst

theorem instr {i j : Instr} (h : nameInstr names i = nameInstr names' j) :
    Alike names names' (Emit.instr i) (Emit.instr j) := by
  intro s t hst
  refine ⟨rfl, hst.next, ?_⟩
  change nameCode names (s.code.push i) = nameCode names' (t.code.push j)
  have hcode := hst.code
  unfold nameCode at hcode ⊢
  simp [hcode, h]

theorem fresh : Alike names names' Emit.fresh Emit.fresh := by
  intro s t hst
  exact ⟨congrArg Register.virtual hst.next, congrArg (· + 1) hst.next, hst.code⟩

end Alike

/-- The fragment refers to no object, so it does the same whatever the names are. -/
class Steady {α : Type} (e : Emit α) : Prop where
  alike : ∀ names names', Alike names names' e e

namespace Steady

variable {α β : Type}

instance pure (x : α) : Steady (pure x) := ⟨fun _ _ => .pure x⟩

instance bind {e : Emit α} {f : α → Emit β} [he : Steady e] [hf : ∀ x, Steady (f x)] :
    Steady (e >>= f) :=
  ⟨fun names names' => (he.alike names names').bind fun x => (hf x).alike names names'⟩

/-- For long fragments, which are taken apart one step at a time. -/
theorem step {e : Emit α} {f : α → Emit β} (he : Steady e) (hf : ∀ x, Steady (f x)) :
    Steady (e >>= f) := inferInstance

instance ite {c : Prop} [Decidable c] {e e' : Emit α} [Steady e] [Steady e'] :
    Steady (if c then e else e') := by
  split <;> infer_instance

instance fresh : Steady Emit.fresh := ⟨fun _ _ => .fresh⟩

theorem instr {i : Instr} (h : ∀ id, i.target ≠ some (.object id)) : Steady (Emit.instr i) :=
  ⟨fun _ _ => .instr (nameInstr_congr h)⟩

instance instr_rr (op : Machine.Opcode) (rt ra rb : Register) :
    Steady (Emit.instr (.rr op rt ra rb)) := .instr nofun

instance instr_rrr (op : Machine.Opcode) (rt ra rb rc : Register) :
    Steady (Emit.instr (.rrr op rt ra rb rc)) := .instr nofun

instance instr_ri (op : Machine.Opcode) (rt ra : Register) (c : Int) :
    Steady (Emit.instr (.ri op rt ra c)) := .instr nofun

instance instr_imm (op : Machine.Opcode) (rt : Register) (c : Int) :
    Steady (Emit.instr (.imm op rt c)) := .instr nofun

instance instr_mk (op : Machine.Opcode) (rt ra rb rc : Option Register) (c : Int) :
    Steady (Emit.instr ⟨op, rt, ra, rb, rc, c, none⟩) := .instr nofun

end Steady

namespace Emit

instance rr_steady (op : Machine.Opcode) (ra rb : Register) : Steady (rr op ra rb) := by
  unfold rr
  infer_instance

instance rrr_steady (op : Machine.Opcode) (ra rb rc : Register) : Steady (rrr op ra rb rc) := by
  unfold rrr
  infer_instance

instance ri_steady (op : Machine.Opcode) (ra : Register) (c : Int) : Steady (ri op ra c) := by
  unfold ri
  infer_instance

instance imm_steady (op : Machine.Opcode) (c : Int) : Steady (imm op c) := by
  unfold imm
  infer_instance

instance move_steady (dst src : Register) : Steady (move dst src) := by
  unfold move
  infer_instance

end Emit

end SpuCompiler.Selection
