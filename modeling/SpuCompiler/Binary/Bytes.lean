/-!
Natural numbers as byte strings of a fixed length, least significant byte first
(`littleEndian`) or last (`bigEndian`), and back.
-/

namespace SpuCompiler.Binary

/-- The low `width` bytes of `n`, least significant first. -/
def littleEndian : (width n : Nat) → List UInt8
  | 0, _ => []
  | w + 1, n => UInt8.ofNat n :: littleEndian w (n / 256)

def ofLittleEndian : List UInt8 → Nat
  | [] => 0
  | b :: bs => b.toNat + 256 * ofLittleEndian bs

/-- The low `width` bytes of `n`, most significant first. -/
def bigEndian (width n : Nat) : List UInt8 := (littleEndian width n).reverse

@[simp] theorem length_littleEndian (w n : Nat) : (littleEndian w n).length = w := by
  induction w generalizing n with
  | zero => rfl
  | succ w ih => simp [littleEndian, ih]

theorem ofLittleEndian_littleEndian (w n : Nat) :
    ofLittleEndian (littleEndian w n) = n % Nat.pow 256 w := by
  induction w generalizing n with
  | zero => simp [littleEndian, ofLittleEndian, Nat.mod_one]
  | succ w ih =>
    rw [Nat.pow_eq, Nat.pow_succ', Nat.mod_mul, littleEndian, ofLittleEndian, ih, UInt8.toNat_ofNat']
    rfl

end SpuCompiler.Binary
