/-! Rounding up to a multiple. -/

namespace SpuCompiler.Binary

/-- The least multiple of `align` that is at least `n`. -/
def alignUp (n align : Nat) : Nat := (n + align - 1) / align * align

theorem dvd_alignUp (n align : Nat) : align ∣ alignUp n align := Nat.dvd_mul_left _ _

theorem le_alignUp (n : Nat) {align : Nat} (h : 0 < align) : n ≤ alignUp n align := by
  have hlt : n + align - 1 < alignUp n align + align := Nat.lt_div_mul_add h
  omega

theorem alignUp_lt (n : Nat) {align : Nat} (h : 0 < align) : alignUp n align < n + align := by
  have hle : alignUp n align ≤ n + align - 1 := Nat.div_mul_le_self _ _
  omega

/-- Quadwords that cover `n` bytes. -/
def quadwords (n : Nat) : Nat := (n + 15) / 16

end SpuCompiler.Binary
