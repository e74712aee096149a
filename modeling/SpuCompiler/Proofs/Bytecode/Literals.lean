import Mathlib.Tactic
import SpuCompiler.Bytecode.Source
import SpuCompiler.Text.Hex

/-!
Integer literals of operands. A literal is a number, decimal or hexadecimal behind `0x`, after at
most one minus; decimal digits may have a plus. The number is read with a sign of its own and has to
be a signed word of 64 bits. So a sign is also taken behind the minus or behind `0x`, the literals of
the least word are refused, and a minus before that word gives a value that no word holds.
-/

namespace SpuCompiler.Text

/-! ## Grammar -/

/-- The character is a digit of the radix, in either case of the letters. -/
def Spells (radix : Nat) (c : Char) (d : Nat) : Prop :=
  d < radix ∧ (c = d.digitChar ∨ c = d.digitChar.toUpper)

/-- One or more digits, the highest first, and the number that they write. -/
inductive Numeral (radix : Nat) : List Char → Nat → Prop
  | digit {c d} (hd : Spells radix c d) : Numeral radix [c] d
  | append {cs n c d} (h : Numeral radix cs n) (hd : Spells radix c d) :
    Numeral radix (cs ++ [c]) (radix * n + d)

/-- A number in one of the radices. Only a plus before decimal digits is a proper sign. -/
inductive Number : (proper : Bool) → List Char → Int → Prop
  | decimal {cs n} (h : Numeral 10 cs n) : Number true cs n
  | plus {cs n} (h : Numeral 10 cs n) : Number true ('+' :: cs) n
  | minus {cs n} (h : Numeral 10 cs n) : Number false ('-' :: cs) (-n)
  | hexadecimal {cs n} (h : Numeral 16 cs n) : Number true ('0' :: 'x' :: cs) n
  | hexadecimalPlus {cs n} (h : Numeral 16 cs n) : Number false ('0' :: 'x' :: '+' :: cs) n
  | hexadecimalMinus {cs n} (h : Numeral 16 cs n) : Number false ('0' :: 'x' :: '-' :: cs) (-n)

/-- A number after at most one minus: a literal, where the number is proper. -/
inductive Signed (proper : Bool) : List Char → Int → Prop
  | plain {cs v} (h : Number proper cs v) (hcs : cs.head? ≠ some '-') : Signed proper cs v
  | minus {cs v} (h : Number proper cs v) : Signed proper ('-' :: cs) (-v)

variable {radix d n : Nat} {c : Char} {cs : List Char} {proper : Bool} {v w : Int}

/-! ## Numerals -/

theorem toNat_digitChar (hd : d < 16) :
    d.digitChar.toNat = (if d < 10 then 48 + d else 87 + d) ∧
      d.digitChar.toUpper.toNat = if d < 10 then 48 + d else 55 + d := by
  have hall : ∀ d < 16, d.digitChar.toNat = (if d < 10 then 48 + d else 87 + d) ∧
      d.digitChar.toUpper.toNat = if d < 10 then 48 + d else 55 + d := by decide +kernel
  exact hall d hd

theorem digit?_eq_some_iff (hradix : radix ≤ 16) : digit? radix c = some d ↔ Spells radix c d := by
  have hle : ∀ a b : Char, a ≤ b ↔ a.toNat ≤ b.toNat := fun a b => Iff.rfl
  have hvalue : digit? radix c = some d ↔ d < radix ∧
      (c.toNat = (if d < 10 then 48 + d else 87 + d) ∨
        c.toNat = if d < 10 then 48 + d else 55 + d) := by
    simp only [digit?, hle, Option.filter_eq_some_iff]
    grind
  rw [hvalue, Spells]
  refine and_congr_right fun hd => ?_
  obtain ⟨hlower, hupper⟩ := toNat_digitChar (show d < 16 by omega)
  rw [← hlower, ← hupper, Char.toNat_inj, Char.toNat_inj]

theorem natural?_append (c : Char) (cs : List Char) : natural? radix (cs ++ [c]) =
    if cs = [] then digit? radix c
    else (natural? radix cs).bind fun n => (digit? radix c).map (radix * n + ·) := by
  cases cs with
  | nil => cases h : digit? radix c <;> simp [natural?, h]
  | cons b cs =>
    rw [if_neg (by simp), List.cons_append, natural?, natural?, ← List.cons_append,
      List.foldlM_append]
    simp

-- The induction is on the last digit, since the digits before it write the number that it extends.
theorem natural?_eq_some_iff (hradix : radix ≤ 16) :
    natural? radix cs = some n ↔ Numeral radix cs n := by
  constructor
  · intro h
    induction cs using List.reverseRecOn generalizing n with
    | nil => cases h
    | append_singleton cs c ih =>
      rw [natural?_append] at h
      split at h
      · subst cs
        exact .digit ((digit?_eq_some_iff hradix).mp h)
      · obtain ⟨m, hm, h⟩ := Option.bind_eq_some_iff.mp h
        obtain ⟨d, hd, rfl⟩ := Option.map_eq_some_iff.mp h
        exact .append (ih hm) ((digit?_eq_some_iff hradix).mp hd)
  · intro h
    induction h with
    | @digit c d hd =>
      rw [← List.nil_append [c], natural?_append, if_pos rfl, (digit?_eq_some_iff hradix).mpr hd]
    | @append cs n c d h hd ih =>
      have hcs : cs ≠ [] := by
        rintro rfl
        cases ih
      rw [natural?_append, if_neg hcs, ih, (digit?_eq_some_iff hradix).mpr hd]
      rfl

namespace Numeral

theorem zero_cons (hradix : 0 < radix) (h : Numeral radix cs n) : Numeral radix ('0' :: cs) n := by
  induction h with
  | @digit c d hd =>
    have hzero : Spells radix '0' 0 := ⟨hradix, .inl rfl⟩
    simpa using (Numeral.digit hzero).append hd
  | append h hd ih => exact ih.append hd

theorem replicate_append (hradix : 0 < radix) (k : Nat) (h : Numeral radix cs n) :
    Numeral radix (List.replicate k '0' ++ cs) n := by
  induction k with
  | zero => exact h
  | succ k ih => exact ih.zero_cons hradix

theorem toDigits (hradix : 1 < radix) (n : Nat) : Numeral radix (Nat.toDigits radix n) n := by
  induction n using Nat.strongRecOn with
  | ind n ih =>
    rw [Nat.toDigits_eq_if hradix]
    split
    · exact .digit ⟨‹n < radix›, .inl rfl⟩
    · have hlast : Spells radix (n % radix).digitChar (n % radix) :=
        ⟨Nat.mod_lt n (by omega), .inl rfl⟩
      have hdigits := (ih (n / radix) (Nat.div_lt_self (by omega) hradix)).append hlast
      rwa [Nat.div_add_mod] at hdigits

theorem digits (hradix : radix ≤ 16) (h : Numeral radix cs n) :
    ∀ c ∈ cs, (digit? radix c).isSome = true := by
  have hdigit : ∀ {c d}, Spells radix c d → (digit? radix c).isSome = true := fun hd => by
    rw [(digit?_eq_some_iff hradix).mpr hd, Option.isSome_some]
  induction h with
  | digit hd => simpa using hdigit hd
  | append h hd ih => simpa [or_imp, forall_and] using ⟨ih, hdigit hd⟩

end Numeral

/-- Digits are read as the number that they write. -/
theorem natural?_toDigits (hlow : 1 < radix) (hhigh : radix ≤ 16) (n : Nat) :
    natural? radix (Nat.toDigits radix n) = some n :=
  (natural?_eq_some_iff hhigh).mpr (.toDigits hlow n)

/-! ## Numbers -/

theorem integer?_numeral (hradix : radix ≤ 16) (h : Numeral radix cs n) :
    integer? radix cs = some (n : Int) := by
  have hdigits := h.digits hradix
  unfold integer?
  split
  · simp [digit?] at hdigits
  · simp [digit?] at hdigits
  · simp [(natural?_eq_some_iff hradix).mpr h]

/-- A number is read with its own sign when a word holds it. -/
theorem Number.unnegated?_eq (h : Number proper cs v) :
    unnegated? cs = if fitsSigned 64 v = true then some v else none := by
  have hten {ds m} := @natural?_eq_some_iff 10 m ds (by decide)
  have hsixteen {ds m} := @natural?_eq_some_iff 16 m ds (by decide)
  cases h with
  | decimal h =>
    have hdigits := h.digits (by decide)
    unfold unnegated?
    split
    · simp [digit?] at hdigits
    · rw [signed?, integer?_numeral (by decide) h, Option.filter_some]
  | hexadecimal h => rw [unnegated?, signed?, integer?_numeral (by decide) h, Option.filter_some]
  | plus h | minus h => simp [unnegated?, signed?, integer?, hten.mpr h, Option.filter_some]
  | hexadecimalPlus h | hexadecimalMinus h =>
    simp [unnegated?, signed?, integer?, hsixteen.mpr h, Option.filter_some]

theorem exists_number (h : unnegated? cs = some v) :
    fitsSigned 64 v = true ∧ ∃ proper, Number proper cs v := by
  unfold unnegated? at h
  split at h
  all_goals
    obtain ⟨h, hv⟩ := Option.filter_eq_some_iff.mp h
    refine ⟨hv, ?_⟩
    unfold integer? at h
    split at h
  all_goals
    simp only [Option.bind_eq_bind, Option.pure_def, Option.map_eq_some_iff,
      Option.bind_eq_some_iff, Option.some.injEq] at h
    obtain ⟨_, ⟨n, hn, rfl⟩, rfl⟩ := h
    have hnumeral := (natural?_eq_some_iff (by decide)).mp hn
  · exact ⟨_, .hexadecimalMinus hnumeral⟩
  · exact ⟨_, .hexadecimalPlus hnumeral⟩
  · exact ⟨_, .hexadecimal hnumeral⟩
  · exact ⟨_, .minus hnumeral⟩
  · exact ⟨_, .plus hnumeral⟩
  · exact ⟨_, .decimal hnumeral⟩

theorem Number.nonneg (h : Number true cs v) : 0 ≤ v := by
  cases h <;> exact Int.natCast_nonneg _

theorem Number.head?_ne (h : Number true cs v) : cs.head? ≠ some '-' := by
  cases h with
  | decimal h =>
    intro hcs
    cases h.digits (by decide) _ (List.mem_of_head? hcs)
  | plus h | hexadecimal h => simp

/-- No text is a number both with and without an improper sign. -/
theorem Number.disjoint (h : Number true cs v) : ¬ Number false cs w := by
  intro hsign
  cases hsign with
  | minus => exact h.head?_ne rfl
  | hexadecimalPlus | hexadecimalMinus =>
    cases h with
    | decimal h | hexadecimal h => simpa [digit?] using h.digits

/-! ## Literals -/

theorem literal?_eq_unnegated? (h : cs.head? ≠ some '-') : literal? cs = unnegated? cs := by
  unfold literal?
  split
  · exact absurd rfl h
  · rfl

theorem Signed.literal?_eq (h : Signed proper cs v) : literal? cs =
    if fitsSigned 64 (if cs.head? = some '-' then -v else v) = true then some v else none := by
  cases h with
  | plain h hcs => rw [literal?_eq_unnegated? hcs, h.unnegated?_eq, if_neg hcs]
  | minus h =>
    rw [literal?, h.unnegated?_eq, List.head?_cons, if_pos rfl, neg_neg]
    split <;> rfl

theorem literal?_eq_some_iff : literal? cs = some v ↔ (∃ proper, Signed proper cs v) ∧
    fitsSigned 64 (if cs.head? = some '-' then -v else v) = true := by
  constructor
  · intro h
    by_cases hcs : cs.head? = some '-'
    · obtain ⟨ds, rfl⟩ := List.head?_eq_some_iff.mp hcs
      obtain ⟨w, hw, rfl⟩ := Option.map_eq_some_iff.mp h
      obtain ⟨hfits, proper, hn⟩ := exists_number hw
      exact ⟨⟨proper, .minus hn⟩, by simpa using hfits⟩
    · rw [literal?_eq_unnegated? hcs] at h
      obtain ⟨hfits, proper, hn⟩ := exists_number h
      exact ⟨⟨proper, .plain hn hcs⟩, by simpa [hcs] using hfits⟩
  · rintro ⟨⟨proper, h⟩, hfits⟩
    rw [h.literal?_eq, if_pos hfits]

theorem Signed.disjoint (h : Signed true cs v) : ¬ Signed false cs w := by
  intro hsign
  cases h with
  | plain h hcs =>
    cases hsign with
    | plain h' => exact h.disjoint h'
    | minus => exact hcs rfl
  | minus h =>
    cases hsign with
    | plain h' hcs => exact hcs rfl
    | minus h' => exact h.disjoint h'

theorem fitsSigned_64 : fitsSigned 64 v = true ↔ -2 ^ 63 ≤ v ∧ v < 2 ^ 63 := by
  simp [fitsSigned]

/-- A literal is read when it is a word other than the least one. -/
theorem Signed.literal?_proper (h : Signed true cs v) :
    literal? cs = if fitsSigned 64 v = true ∧ v ≠ -2 ^ 63 then some v else none := by
  rw [h.literal?_eq]
  congr 1
  simp only [fitsSigned_64, eq_iff_iff]
  cases h with
  | plain h hcs =>
    have := h.nonneg
    simp only [hcs, if_false]
    omega
  | minus h =>
    have := h.nonneg
    simp only [List.head?_cons, if_true]
    omega

/-- A leading minus negates a word, and no word holds the result. -/
def NegationOverflows (cs : List Char) : Prop :=
  ∃ ds w, cs = '-' :: ds ∧ unnegated? ds = some w ∧ fitsSigned 64 (-w) = false

theorem negationOverflows_iff :
    NegationOverflows cs ↔ cs.head? = some '-' ∧ Signed false cs (2 ^ 63) := by
  constructor
  · rintro ⟨ds, w, rfl, hw, hoverflow⟩
    obtain ⟨hfits, proper, hn⟩ := exists_number hw
    rw [← Bool.not_eq_true, fitsSigned_64] at hoverflow
    rw [fitsSigned_64] at hfits
    obtain rfl : w = -2 ^ 63 := by omega
    refine ⟨rfl, ?_⟩
    cases proper with
    | false => simpa using Signed.minus hn
    | true => cases hn.nonneg
  · rintro ⟨hcs, h⟩
    generalize hv : (2 ^ 63 : Int) = v at h
    cases h with
    | plain h hcs' => exact absurd hcs hcs'
    | @minus ds w h =>
      obtain rfl : w = -2 ^ 63 := by omega
      exact ⟨ds, _, rfl, by rw [h.unnegated?_eq]; rfl, rfl⟩

/-! ## Texts of numbers -/

/-- A minus for negative numbers, and the magnitude in at least `width` hexadecimal digits. -/
def signedHex (width : Nat) (v : Int) : List Char :=
  (if v < 0 then ['-'] else []) ++ (hex width v.natAbs).toList

theorem signed_toString (v : Int) : Signed true (toString v).toList v := by
  have hnumber (n : Nat) : Number true n.repr.toList n := by
    rw [Nat.repr_eq_ofList_toDigits, String.toList_ofList]
    exact .decimal (.toDigits (by decide) n)
  rw [Int.toString_eq_repr]
  cases v with
  | ofNat n => exact .plain (hnumber n) (hnumber n).head?_ne
  | negSucc n =>
    rw [Int.repr, String.toList_append]
    exact .minus (hnumber (n + 1))

theorem signed_signedHex (width : Nat) (v : Int) : Signed true (signedHex width v) v := by
  have hnumber : Number true (hex width v.natAbs).toList v.natAbs := by
    rw [hex, hexPad, String.toList_append, String.toList_ofList, String.toList_ofList]
    exact .hexadecimal ((Numeral.toDigits (by decide) _).replicate_append (by decide) _)
  unfold signedHex
  split
  · have hminus := Signed.minus hnumber
    rwa [show -(v.natAbs : Int) = v by omega] at hminus
  · have hplain := Signed.plain hnumber hnumber.head?_ne
    rwa [show (v.natAbs : Int) = v by omega] at hplain

/-- The decimal and hexadecimal texts of a word are read as the word, unless it is the least one. A
text is read as a value exactly where it is a number after at most one minus, properly signed or
not, and the number is a word. Only a text that is no literal is negated to what no word holds. -/
theorem literals_read (cs : List Char) (v : Int) (width : Nat) :
    (NegationOverflows cs ↔ cs.head? = some '-' ∧ Signed false cs (2 ^ 63)) ∧
    literal? (toString v).toList =
      (if fitsSigned 64 v = true ∧ v ≠ -2 ^ 63 then some v else none) ∧
    literal? (signedHex width v) =
      (if fitsSigned 64 v = true ∧ v ≠ -2 ^ 63 then some v else none) ∧
    (literal? cs = some v ↔ (Signed true cs v ∨ Signed false cs v) ∧
      fitsSigned 64 (if cs.head? = some '-' then -v else v) = true) ∧
    (Signed true cs v → ∀ w, ¬ Signed false cs w) := by
  refine ⟨negationOverflows_iff, (signed_toString v).literal?_proper,
    (signed_signedHex width v).literal?_proper, ?_, fun h _ => h.disjoint⟩
  rw [literal?_eq_some_iff, Bool.exists_bool, or_comm]

/-- A literal next to the least word is read, and no sign is improper in it. -/
theorem nextToLeast_read :
    literal? (toString (-2 ^ 63 + 1 : Int)).toList = some (-2 ^ 63 + 1) ∧
      ∀ w, ¬ Signed false (toString (-2 ^ 63 + 1 : Int)).toList w := by
  refine ⟨?_, (literals_read _ _ 0).2.2.2.2 (signed_toString (-2 ^ 63 + 1))⟩
  rw [(literals_read [] _ 0).2.1, if_pos (by decide)]

/-- The least word is refused in both radices, a second minus is read, and two of them negate the
least word. -/
theorem leastWord_refused :
    fitsSigned 64 (-2 ^ 63) = true ∧
      literal? (toString (-2 ^ 63 : Int)).toList = none ∧
      literal? (signedHex 0 (-2 ^ 63)) = none ∧
      literal? "--5".toList = some 5 ∧ (∀ w, ¬ Signed true "--5".toList w) ∧
      NegationOverflows "--9223372036854775808".toList ∧
      Bytecode.assemble "ldc.i8 -9223372036854775808" =
        .error ⟨1, .invalidOperand "-9223372036854775808" "ldc.i8"⟩ ∧
      Bytecode.assemble "ldc.i4.s --5" = .ok [0x1F, 0x05] := by
  have hdigit : Numeral 10 ['5'] 5 := .digit ⟨by decide, .inl rfl⟩
  have hfive : Signed false "--5".toList 5 := .minus (.minus hdigit)
  refine ⟨by decide, ?_, ?_, by decide +kernel, fun w h => h.disjoint hfive,
    ⟨"-9223372036854775808".toList, -2 ^ 63, rfl, by decide +kernel, by decide⟩,
    by decide +kernel, by decide +kernel⟩
  · rw [(signed_toString _).literal?_proper, if_neg (by decide)]
  · rw [(signed_signedHex _ _).literal?_proper, if_neg (by decide)]

end SpuCompiler.Text
