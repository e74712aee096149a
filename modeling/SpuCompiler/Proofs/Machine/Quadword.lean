import Mathlib.Tactic

/-!
Contents of a register: 128 bits, read as four words or sixteen bytes, the most significant one
first. An operation on words does the same in each of them; rotations and masks act on bytes.
-/

namespace SpuCompiler.Machine

abbrev Quadword := BitVec 128

namespace Quadword

instance neZeroWords : NeZero 4 := ⟨by decide⟩

instance neZeroBytes : NeZero 16 := ⟨by decide⟩

def word (q : Quadword) (i : Fin 4) : BitVec 32 := q.extractLsb' (96 - 32 * i) 32

/-- The first two words. -/
def long (q : Quadword) : BitVec 64 := q.word 0 ++ q.word 1

def byte (q : Quadword) (j : Fin 16) : BitVec 8 := q.extractLsb' (120 - 8 * j) 8

def ofWords (f : Fin 4 → BitVec 32) : Quadword := f 0 ++ f 1 ++ f 2 ++ f 3

def bytesWord (f : Fin 16 → BitVec 8) (j : Fin 16) : BitVec 32 :=
  f j ++ f (j + 1) ++ f (j + 2) ++ f (j + 3)

def ofBytes (f : Fin 16 → BitVec 8) : Quadword := ofWords fun i => bytesWord f (4 * i.castLE (by omega))

def splat (w : BitVec 32) : Quadword := ofWords fun _ => w

def map (f : BitVec 32 → BitVec 32) (p : Quadword) : Quadword := ofWords fun i => f (p.word i)

def map₂ (f : BitVec 32 → BitVec 32 → BitVec 32) (p q : Quadword) : Quadword :=
  ofWords fun i => f (p.word i) (q.word i)

/-- Moves each byte `n` places to the left, and those that leave the register to its end. -/
def rotateBytes (q : Quadword) (n : Fin 16) : Quadword := ofBytes fun j => q.byte (j + n)

/-- Bytes of ones and zeros, one for each bit. -/
def byteMask (m : BitVec 16) : Quadword := ofBytes fun j => if m.getMsbD j then 0xFF else 0

/-- Bits of `q` where the mask is set, and of `p` where it is not. -/
def select (p q mask : Quadword) : Quadword := (p &&& ~~~mask) ||| (q &&& mask)

/-- The byte that a byte of a pattern stands for: one of the 32 bytes of `p` and `q`, or, if its
first bit is set, a constant. -/
def shuffleByte (p q : Quadword) (c : BitVec 8) : BitVec 8 :=
  if c.toNat < 0x80 then
    if c.toNat % 32 < 16 then p.byte (Fin.ofNat 16 c.toNat) else q.byte (Fin.ofNat 16 c.toNat)
  else if c.toNat < 0xC0 then 0
  else if c.toNat < 0xE0 then 0xFF
  else 0x80

def shuffle (p q pattern : Quadword) : Quadword := ofBytes fun j => shuffleByte p q (pattern.byte j)

/-- The pattern that puts a scalar of `p` at a place in `q`. A scalar of less than a word is at the
end of the first word. -/
def insertPattern (size place : Nat) : Quadword := ofBytes fun j =>
  BitVec.ofNat 8 (if place ≤ j ∧ j < place + size then j - place + (4 - size) else 16 + j)

@[simp] theorem word_ofWords (f : Fin 4 → BitVec 32) (i : Fin 4) : (ofWords f).word i = f i := by
  fin_cases i <;>
  · ext k hk
    simp [word, ofWords, BitVec.getElem_extractLsb']
    grind

@[simp] theorem word_splat (w : BitVec 32) (i : Fin 4) : (splat w).word i = w :=
  word_ofWords _ i

@[simp] theorem word_map (f : BitVec 32 → BitVec 32) (p : Quadword) (i : Fin 4) :
    (map f p).word i = f (p.word i) :=
  word_ofWords _ i

@[simp] theorem word_map₂ (f : BitVec 32 → BitVec 32 → BitVec 32) (p q : Quadword) (i : Fin 4) :
    (map₂ f p q).word i = f (p.word i) (q.word i) :=
  word_ofWords _ i

theorem map_splat (f : BitVec 32 → BitVec 32) (w : BitVec 32) : (splat w).map f = splat (f w) := by
  simp only [map, splat, word_ofWords]

@[simp] theorem word_and (p q : Quadword) (i : Fin 4) : (p &&& q).word i = p.word i &&& q.word i :=
  BitVec.extractLsb'_and ..

@[simp] theorem word_or (p q : Quadword) (i : Fin 4) : (p ||| q).word i = p.word i ||| q.word i :=
  BitVec.extractLsb'_or ..

@[simp] theorem word_xor (p q : Quadword) (i : Fin 4) : (p ^^^ q).word i = p.word i ^^^ q.word i :=
  BitVec.extractLsb'_xor ..

@[simp] theorem word_not (p : Quadword) (i : Fin 4) : (~~~p).word i = ~~~p.word i := by
  fin_cases i <;>
  · ext k hk
    simp [word, BitVec.getElem_extractLsb']
    omega

@[simp] theorem long_and (p q : Quadword) : (p &&& q).long = p.long &&& q.long := by
  rw [long, word_and, word_and]
  exact BitVec.and_append.symm

@[simp] theorem long_or (p q : Quadword) : (p ||| q).long = p.long ||| q.long := by
  rw [long, word_or, word_or]
  exact BitVec.or_append.symm

@[simp] theorem long_xor (p q : Quadword) : (p ^^^ q).long = p.long ^^^ q.long := by
  rw [long, word_xor, word_xor]
  exact BitVec.xor_append.symm

@[simp] theorem long_not (p : Quadword) : (~~~p).long = ~~~p.long := by
  rw [long, word_not, word_not]
  exact BitVec.not_append.symm

theorem word_ofBytes (f : Fin 16 → BitVec 8) (i : Fin 4) :
    (ofBytes f).word i = bytesWord f (4 * i.castLE (by omega)) :=
  word_ofWords _ i

theorem bytesWord_byte (q : Quadword) (i : Fin 4) :
    bytesWord q.byte (4 * i.castLE (by omega)) = q.word i := by
  fin_cases i <;>
  · ext k hk
    simp [word, bytesWord, byte, BitVec.getElem_extractLsb']
    grind

/-- A rotation by whole words renames the words. -/
theorem word_rotateBytes (q : Quadword) (k i : Fin 4) :
    (q.rotateBytes (4 * k.castLE (by omega))).word i = q.word (i + k) := by
  rw [rotateBytes, word_ofBytes, ← bytesWord_byte]
  fin_cases k <;> fin_cases i <;> rfl

end Quadword

end SpuCompiler.Machine
