import SpuCompiler.Machine.Instr
import SpuCompiler.Proofs.Machine.Quadword

/-!
What instructions do. A state has the contents of all registers, virtual ones included, and the
local store. Straight-line code over integers and memory runs instruction by instruction; a
conditional branch at its end is taken or not, and an indirect one goes where its register says. An
immediate is what the field of its instruction word holds.
-/

namespace SpuCompiler.Machine

/-- An address in the local store of 256 KiB. -/
abbrev Address := BitVec 18

structure State where
  registers : Register → Quadword
  store : Address → BitVec 8

/-! ## Operations on words -/

/-- The product of the high half of `a` and the low half of `b`, in the high half. -/
def multiplyHigh (a b : BitVec 32) : BitVec 32 := (a.extractLsb' 16 16 * b.extractLsb' 0 16) ++ 0#16

def multiplyUnsigned (a b : BitVec 32) : BitVec 32 :=
  (a.extractLsb' 0 16).setWidth 32 * (b.extractLsb' 0 16).setWidth 32

def wordMask (p : Bool) : BitVec 32 := if p then BitVec.allOnes 32 else 0

/-- Counts of shifts have six bits. -/
def shiftLeft (a count : BitVec 32) : BitVec 32 := a <<< (count.toNat % 64)

/-- Right shifts rotate and mask: they take the negated count. -/
def rotateMask (a count : BitVec 32) : BitVec 32 := a >>> ((-count).toNat % 64)

def rotateMaskSigned (a count : BitVec 32) : BitVec 32 := a.sshiftRight ((-count).toNat % 64)

def extendBytes (a : BitVec 32) : BitVec 32 :=
  (a.extractLsb' 16 8).signExtend 16 ++ (a.extractLsb' 0 8).signExtend 16

def extendHalf (a : BitVec 32) : BitVec 32 := (a.extractLsb' 0 16).signExtend 32

/-! ## Instructions -/

def rrResult : Opcode → Option (Quadword → Quadword → Quadword)
  | .a => some (.map₂ fun a b => a + b)
  | .sf => some (.map₂ fun a b => b - a)
  | .and => some fun p q => p &&& q
  | .or => some fun p q => p ||| q
  | .xor => some fun p q => p ^^^ q
  | .nor => some fun p q => ~~~(p ||| q)
  | .andc => some fun p q => p &&& ~~~q
  | .mpyh => some (.map₂ multiplyHigh)
  | .mpyu => some (.map₂ multiplyUnsigned)
  | .ceq => some (.map₂ fun a b => wordMask (a == b))
  | .cgt => some (.map₂ fun a b => wordMask (b.slt a))
  | .clgt => some (.map₂ fun a b => wordMask (b.ult a))
  | .shl => some (.map₂ shiftLeft)
  | .rotm => some (.map₂ rotateMask)
  | .rotma => some (.map₂ rotateMaskSigned)
  | .xsbh => some fun p _ => p.map extendBytes
  | .xshw => some fun p _ => p.map extendHalf
  | .rotqby => some fun p q => p.rotateBytes (Fin.ofNat 16 (q.word 0).toNat)
  | .rotqmby => some fun p q => p >>> (8 * ((-q.word 0).toNat % 32))
  | .rotqmbi => some fun p q => p >>> ((-q.word 0).toNat % 8)
  | _ => none

def rrrResult : Opcode → Option (Quadword → Quadword → Quadword → Quadword)
  | .selb => some .select
  | .shufb => some .shuffle
  | _ => none

def immediateWord (width : Nat) (constant : Int) : BitVec 32 :=
  (BitVec.ofInt width constant).signExtend 32

def insertPatternAt (size : Nat) (p : Quadword) (constant : Int) : Quadword :=
  .insertPattern size ((p.word 0 + immediateWord 7 constant).toNat % 16 / size * size)

def riResult : Opcode → Option (Quadword → Int → Quadword)
  | .ai => some fun p c => p.map fun a => a + immediateWord 10 c
  | .sfi => some fun p c => p.map fun a => immediateWord 10 c - a
  | .cgti => some fun p c => p.map fun a => wordMask ((immediateWord 10 c).slt a)
  | .andi => some fun p c => p.map fun a => a &&& immediateWord 10 c
  | .ori => some fun p c => p.map fun a => a ||| immediateWord 10 c
  | .mpyi => some fun p c => p.map fun a => extendHalf a * immediateWord 10 c
  | .shli => some fun p c => p.map fun a => shiftLeft a (immediateWord 7 c)
  | .rotmi => some fun p c => p.map fun a => rotateMask a (immediateWord 7 c)
  | .rotmai => some fun p c => p.map fun a => rotateMaskSigned a (immediateWord 7 c)
  | .rotqbyi => some fun p c => p.rotateBytes (Fin.ofNat 16 (immediateWord 7 c).toNat)
  | .cbd => some (insertPatternAt 1)
  | .chd => some (insertPatternAt 2)
  | .cwd => some (insertPatternAt 4)
  | .cdd => some (insertPatternAt 8)
  | _ => none

def immResult : Opcode → Option (Quadword → Int → Quadword)
  | .il => some fun _ c => .splat ((BitVec.ofInt 16 c).signExtend 32)
  | .ilhu => some fun _ c => .splat (BitVec.ofInt 16 c ++ 0#16)
  | .iohl => some fun p c => p.map fun a => a ||| (BitVec.ofInt 16 c).setWidth 32
  | .fsmbi => some fun _ c => .byteMask (BitVec.ofInt 16 c)
  | _ => none

namespace State

def set (s : State) (r : Register) (q : Quadword) : State :=
  { s with registers := fun x => if x = r then q else s.registers x }

/-- The quadword around an address. -/
def load (s : State) (a : Address) : Quadword :=
  .ofBytes fun j => s.store ((a &&& 0x3FFF0#18) + BitVec.ofNat 18 j)

/-- Writes the quadword around an address. -/
def save (s : State) (a : Address) (q : Quadword) : State :=
  { s with store := fun x =>
      if x &&& 0x3FFF0#18 = a &&& 0x3FFF0#18 then q.byte (Fin.ofNat 16 x.toNat) else s.store x }

def quadwordAddress (base : Quadword) (number : Int) : Address :=
  (base.word 0 + immediateWord 10 number <<< 4).setWidth 18

/-- The state after an instruction, if it is one of straight-line code over integers and memory.
Objects stand at the given addresses. -/
def exec (address : Nat → Address) (s : State) (i : Instr) : Option State :=
  match i.rt, i.ra, i.rb, i.rc, i.target with
  | some rt, some ra, some rb, some rc, none =>
    (rrrResult i.opcode).map fun f =>
      s.set rt (f (s.registers ra) (s.registers rb) (s.registers rc))
  | some rt, some ra, some rb, none, none =>
    (rrResult i.opcode).map fun f => s.set rt (f (s.registers ra) (s.registers rb))
  | some rt, some ra, none, none, none =>
    match riResult i.opcode, i.opcode with
    | some f, _ => some (s.set rt (f (s.registers ra) i.constant))
    | none, .lqd => some (s.set rt (s.load (quadwordAddress (s.registers ra) i.constant)))
    | none, .stqd => some (s.save (quadwordAddress (s.registers ra) i.constant) (s.registers rt))
    | none, _ => none
  | some rt, none, none, none, none =>
    (immResult i.opcode).map fun f => s.set rt (f (s.registers rt) i.constant)
  | some rt, none, none, none, some (.object object) =>
    match i.opcode with
    | .lqr => some (s.set rt (s.load (address object)))
    | .stqr => some (s.save (address object) (s.registers rt))
    | .ila => some (s.set rt (.splat ((address object).setWidth 32)))
    | _ => none
  | _, _, _, _, _ => none

def run (address : Nat → Address) (s : State) : List Instr → Option State
  | [] => some s
  | i :: is => (s.exec address i).bind fun s => s.run address is

/-- Whether a conditional branch is taken: it tests the preferred word. -/
def takes? (s : State) (i : Instr) : Option Bool :=
  match i.opcode, i.rt with
  | .brnz, some rt => some ((s.registers rt).word 0 != 0)
  | .brz, some rt => some ((s.registers rt).word 0 == 0)
  | _, _ => none

/-- The instruction that a register points to: the last two bits do not count. -/
def codeAddress (q : Quadword) : Address := (q.word 0).setWidth 18 &&& 0x3FFFC#18

def jump? (s : State) (i : Instr) : Option Address :=
  match i.opcode, i.ra with
  | .bi, some ra => some (codeAddress (s.registers ra))
  | _, _ => none

/-- Runs code that ends with an indirect branch: the state at its end and where it goes on. -/
def leave? (address : Nat → Address) (s : State) (code : List Instr) : Option (State × Address) := do
  let branch ← code.getLast?
  let t ← s.run address code.dropLast
  let target ← t.jump? branch
  return (t, target)

theorem run_append (address : Nat → Address) (s : State) (code more : List Instr) :
    s.run address (code ++ more) = (s.run address code).bind fun s => s.run address more := by
  induction code generalizing s with
  | nil => rfl
  | cons i code ih =>
    simp only [List.cons_append, run, Option.bind_assoc]
    exact congrArg _ (funext ih)

theorem leave?_concat {address : Nat → Address} {s t : State} {code : List Instr} {i : Instr}
    {target : Address} (hrun : s.run address code = some t) (hjump : t.jump? i = some target) :
    s.leave? address (code ++ [i]) = some (t, target) := by
  simp [leave?, hrun, hjump]

@[simp] theorem registers_set_self (s : State) (r : Register) (q : Quadword) :
    (s.set r q).registers r = q :=
  if_pos rfl

theorem registers_set_of_ne {r x : Register} (s : State) (q : Quadword) (h : x ≠ r) :
    (s.set r q).registers x = s.registers x :=
  if_neg h

theorem exec_imm {op : Opcode} {f : Quadword → Int → Quadword} (hf : immResult op = some f)
    (address : Nat → Address) (s : State) (rt : Register) (constant : Int) :
    s.exec address (.imm op rt constant) = some (s.set rt (f (s.registers rt) constant)) := by
  simp [exec, Instr.imm, hf]

theorem exec_ri {op : Opcode} {f : Quadword → Int → Quadword} (hf : riResult op = some f)
    (address : Nat → Address) (s : State) (rt ra : Register) (constant : Int) :
    s.exec address (.ri op rt ra constant) = some (s.set rt (f (s.registers ra) constant)) := by
  simp [exec, Instr.ri, hf]

theorem exec_rr {op : Opcode} {f : Quadword → Quadword → Quadword} (hf : rrResult op = some f)
    (address : Nat → Address) (s : State) (rt ra rb : Register) :
    s.exec address (.rr op rt ra rb) = some (s.set rt (f (s.registers ra) (s.registers rb))) := by
  simp [exec, Instr.rr, hf]

theorem exec_lqd (address : Nat → Address) (s : State) (rt ra : Register) (number : Int) :
    s.exec address (.ri .lqd rt ra number) =
      some (s.set rt (s.load (quadwordAddress (s.registers ra) number))) := rfl

theorem exec_stqd (address : Nat → Address) (s : State) (rt ra : Register) (number : Int) :
    s.exec address (.ri .stqd rt ra number) =
      some (s.save (quadwordAddress (s.registers ra) number) (s.registers rt)) := rfl

theorem set_set (s : State) (r : Register) (p q : Quadword) : (s.set r p).set r q = s.set r q := by
  simp only [set, State.mk.injEq, and_true]
  funext x
  split <;> rfl

end State

end SpuCompiler.Machine
