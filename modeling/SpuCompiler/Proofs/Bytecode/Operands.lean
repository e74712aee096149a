import SpuCompiler.Bytecode.Assembly
import SpuCompiler.Proofs.Bytecode.Instructions

/-!
Opcodes and operands as bytes. The bytes of an opcode select it again. What assembly writes for an
argument is read as what the argument means in the method, and what is read is written again from
the record.
-/

namespace SpuCompiler.Binary

theorem ofLittleEndian_lt (bs : List UInt8) : ofLittleEndian bs < 256 ^ bs.length := by
  induction bs with
  | nil => simp [ofLittleEndian]
  | cons b bs ih =>
    have hb := b.toNat_lt
    rw [ofLittleEndian, List.length_cons, Nat.pow_succ]
    omega

theorem littleEndian_ofLittleEndian (bs : List UInt8) :
    littleEndian bs.length (ofLittleEndian bs) = bs := by
  induction bs with
  | nil => rfl
  | cons b bs ih =>
    have hb := b.toNat_lt
    have hhead : UInt8.ofNat (b.toNat + 256 * ofLittleEndian bs) = b := by
      apply UInt8.toNat_inj.mp
      rw [UInt8.toNat_ofNat']
      omega
    have htail : (b.toNat + 256 * ofLittleEndian bs) / 256 = ofLittleEndian bs := by omega
    rw [ofLittleEndian, List.length_cons, littleEndian, hhead, htail, ih]

/-- A word is read as it was written. -/
theorem ofLittleEndian_toNat (w : Nat) (x : BitVec (8 * w)) :
    ofLittleEndian (littleEndian w x.toNat) = x.toNat := by
  have hpow : Nat.pow 256 w = 2 ^ (8 * w) := by
    rw [Nat.pow_mul]
    rfl
  rw [ofLittleEndian_littleEndian, hpow, Nat.mod_eq_of_lt x.isLt]

theorem littleEndian_toNat {w : Nat} {bs : List UInt8} (h : bs.length = w) :
    littleEndian w (BitVec.ofNat (8 * w) (ofLittleEndian bs)).toNat = bs := by
  subst h
  have hlt : ofLittleEndian bs < 2 ^ (8 * bs.length) := by
    rw [Nat.pow_mul]
    exact ofLittleEndian_lt bs
  rw [BitVec.toNat_ofNat, Nat.mod_eq_of_lt hlt, littleEndian_ofLittleEndian]

end SpuCompiler.Binary

namespace SpuCompiler.Text

variable {bits : Nat}

theorem toInt_ofInt {v : Int} (hbits : 0 < bits) (h : fitsSigned bits v = true) :
    (BitVec.ofInt bits v).toInt = v := by
  simp only [fitsSigned, decide_eq_true_eq, Nat.pow_eq] at h
  exact BitVec.toInt_ofInt_eq_self hbits (by exact_mod_cast h.1) (by exact_mod_cast h.2)

theorem fitsSigned_toInt (x : BitVec bits) : fitsSigned bits x.toInt = true := by
  have hlow := BitVec.le_toInt x
  have hhigh := BitVec.toInt_lt (x := x)
  simp only [fitsSigned, decide_eq_true_eq, Nat.pow_eq]
  exact ⟨by exact_mod_cast hlow, by exact_mod_cast hhigh⟩

/-- A text without the bytes of `A` to `Z` is in lower case. -/
theorem map_toLower_eq_self {s : String}
    (h : ∀ b ∈ s.toByteArray.data.toList, b.toNat < 65 ∨ 90 < b.toNat) :
    s.map Char.toLower = s := by
  apply String.toList_inj.mp
  rw [String.toList_map]
  have hfixed : ∀ c ∈ s.toList, c.toLower = c := by
    intro c hc
    apply dif_neg
    rintro ⟨hlow, hhigh⟩
    have hlow' : 65 ≤ c.val.toNat := UInt32.le_iff_toNat_le.mp hlow
    have hhigh' : c.val.toNat ≤ 90 := UInt32.le_iff_toNat_le.mp hhigh
    -- an upper case letter is a byte of its own
    have hchar : String.utf8EncodeChar c = [UInt8.ofNat c.val.toNat] :=
      if_pos (by omega)
    have hbyte : UInt8.ofNat c.val.toNat ∈ s.toByteArray.data.toList := by
      rw [← String.utf8Encode_toList, List.utf8Encode, List.data_toByteArray]
      exact List.mem_flatMap.mpr ⟨c, hc, by rw [hchar]; exact List.mem_singleton_self _⟩
    have hout := h _ hbyte
    rw [UInt8.toNat_ofNat'] at hout
    omega
  rw [List.map_congr_left hfixed, List.map_id']

def digest (s : String) : Nat :=
  s.toByteArray.data.toList.foldl (fun k b => 256 * k + b.toNat) 0 % 65521

/-- Whether the numbers are distinct and none is a bit of `seen`. -/
def areDistinct (seen : Nat) : List Nat → Bool
  | [] => true
  | k :: ks => !seen.testBit k && areDistinct (seen ||| 1 <<< k) ks

theorem nodup_of_areDistinct {seen : Nat} {ks : List Nat} (h : areDistinct seen ks = true) :
    (∀ k ∈ ks, seen.testBit k = false) ∧ ks.Nodup := by
  induction ks generalizing seen with
  | nil => exact ⟨fun k hk => absurd hk List.not_mem_nil, .nil⟩
  | cons k ks ih =>
    simp only [areDistinct, Bool.and_eq_true, Bool.not_eq_true'] at h
    obtain ⟨hrest, hnodup⟩ := ih h.2
    have hapart : ∀ x ∈ ks, seen.testBit x = false ∧ x ≠ k := by
      intro x hx
      have hbit := hrest x hx
      rw [Nat.testBit_or, Bool.or_eq_false_iff, Nat.testBit_shiftLeft] at hbit
      refine ⟨hbit.1, ?_⟩
      rintro rfl
      simp at hbit
    refine ⟨?_, List.nodup_cons.mpr ⟨fun hk => (hapart k hk).2 rfl, hnodup⟩⟩
    intro x hx
    rcases List.mem_cons.mp hx with rfl | hx
    · exact h.1
    · exact (hapart x hx).1

end SpuCompiler.Text

namespace SpuCompiler.Bytecode

open Metadata

variable {o : Opcode} {c : Chunk}

/-! ## Opcodes -/

/-- Under distinct keys the key of a member finds it. -/
theorem find?_key {α β : Type} [DecidableEq β] {key : α → β} {l : List α} (h : (l.map key).Nodup)
    {x : α} (hx : x ∈ l) : l.find? (fun y => key y == key x) = some x := by
  induction l with
  | nil => cases hx
  | cons y l ih =>
    obtain ⟨hy, hl⟩ := List.nodup_cons.mp h
    by_cases hkey : key y = key x
    · rcases List.mem_cons.mp hx with rfl | hx
      · simp
      · exact absurd (hkey ▸ List.mem_map_of_mem hx) hy
    · rcases List.mem_cons.mp hx with rfl | hx
      · exact absurd rfl hkey
      · simpa [List.find?_cons, hkey] using ih hl hx

namespace Opcode

theorem ofValue?_value (h : o ∈ table) : ofValue? o.value = some o := by
  have hchain : (table.map value).IsChain (· < ·) := by decide +kernel
  exact find?_key ((List.isChain_iff_pairwise.mp hchain).imp Nat.ne_of_lt) h

theorem ofName?_name (h : o ∈ table) : ofName? o.name = some o := by
  have hdistinct : Text.areDistinct 0 (table.map fun o => Text.digest o.name) = true := by
    decide +kernel
  have hnames : (table.map name).Nodup := by
    apply List.Nodup.of_map Text.digest
    rw [List.map_map]
    exact (Text.nodup_of_areDistinct hdistinct).2
  have hlower : table.all (fun o => o.name.toByteArray.data.toList.all
      fun b => b.toNat < 65 ∨ 90 < b.toNat) = true := by decide +kernel
  have hname : o.name.map Char.toLower = o.name := by
    apply Text.map_toLower_eq_self
    intro b hb
    exact of_decide_eq_true (List.all_eq_true.mp (List.all_eq_true.mp hlower o h) b hb)
  rw [ofName?, hname]
  exact find?_key hnames h

theorem mem_of_ofName? {name : String} (h : ofName? name = some o) : o ∈ table := by
  unfold ofName? at h
  exact List.mem_of_find?_eq_some h

/-- Two bytes start with the lead byte, one byte is another one. -/
theorem value_of_mem (h : o ∈ table) :
    if o.isExtended then o.value / 256 = leadByte else o.value < 256 ∧ o.value ≠ leadByte := by
  have hall : table.all (fun o => if o.isExtended then o.value / 256 = leadByte
      else o.value < 256 ∧ o.value ≠ leadByte) = true := by decide +kernel
  have := List.all_eq_true.mp hall o h
  split at this <;> simp_all

theorem length_selector (o : Opcode) : o.selector.length = o.selectorLength := by
  unfold selector selectorLength
  split <;> rfl

end Opcode

namespace Scope

variable {s : Scope} {n start : Nat} {bytes : List UInt8} {r : Record} {op : Op}

/-- The bytes of an opcode select it. -/
theorem decode_selector (s : Scope) (start : Nat) (h : o ∈ Opcode.table) (bytes : List UInt8) :
    s.decode start (o.selector ++ bytes) = s.decodeOperand start o bytes := by
  have hvalue := Opcode.value_of_mem h
  have hfind := Opcode.ofValue?_value h
  unfold Opcode.selector
  split
  · rename_i hext
    rw [if_pos hext, leadByte] at hvalue
    have hlead : (UInt8.ofNat (o.value / 256)).toNat = leadByte := by
      rw [UInt8.toNat_ofNat', hvalue]
      rfl
    have hlow : leadByte * 256 + (UInt8.ofNat o.value).toNat = o.value := by
      rw [UInt8.toNat_ofNat', leadByte]
      omega
    simp only [List.cons_append, List.nil_append, decode, if_pos hlead, Opcode.extended?, hlow,
      hfind]
  · rename_i hext
    rw [if_neg hext] at hvalue
    have hlead : (UInt8.ofNat o.value).toNat = o.value := by
      rw [UInt8.toNat_ofNat']
      exact Nat.mod_eq_of_lt hvalue.1
    simp only [List.cons_append, List.nil_append, decode, hlead, if_neg hvalue.2, Opcode.single?,
      hfind]

/-- What is decoded starts with the bytes of its opcode. -/
theorem exists_selector (h : s.decode start bytes = (.ok r, n)) :
    ∃ o ∈ Opcode.table, ∃ rest, bytes = o.selector ++ rest ∧
      s.decodeOperand start o rest = (.ok r, n) := by
  unfold decode at h
  split at h
  · cases h
  · rename_i lead bytes
    split at h
    · rename_i hlead
      split at h
      · cases h
      · rename_i low bytes
        split at h
        · cases h
        · rename_i o ho
          obtain ⟨hmem, hvalue⟩ := ofValue?_some ho
          refine ⟨o, hmem, bytes, ?_, h⟩
          have hlow := low.toNat_lt
          rw [Opcode.selector, if_pos (isExtended_of_extended? ho), hvalue]
          have hfirst : UInt8.ofNat ((leadByte * 256 + low.toNat) / 256) = lead := by
            apply UInt8.toNat_inj.mp
            rw [UInt8.toNat_ofNat', hlead, leadByte]
            omega
          have hsecond : UInt8.ofNat (leadByte * 256 + low.toNat) = low := by
            apply UInt8.toNat_inj.mp
            rw [UInt8.toNat_ofNat', leadByte]
            omega
          rw [hfirst, hsecond]
          rfl
    · split at h
      · cases h
      · rename_i o ho
        obtain ⟨hmem, hvalue⟩ := ofValue?_some ho
        refine ⟨o, hmem, bytes, ?_, h⟩
        rw [Opcode.selector, if_neg (by simp [isExtended_of_single? ho]), hvalue, UInt8.ofNat_toNat]
        rfl

/-- Bytes of the width of an operand that are read as `x`. -/
def ReadAs (s : Scope) (o : Opcode) (op : Op) (stop : Nat) (bytes : List UInt8)
    (x : Operand Place) : Prop :=
  o.operand.width? = some bytes.length ∧ s.operand o op stop (Binary.ofLittleEndian bytes) = .ok x

/-- Operand bytes of the right width are read, whatever stands behind them. -/
theorem decodeOperand_bytes (s : Scope) (start : Nat) (rest : List UInt8) (hop : o.op = some op)
    (hwidth : o.operand.width? = some bytes.length) :
    s.decodeOperand start o (bytes ++ rest) =
      ((s.operand o op (start + (o.selectorLength + bytes.length))
          (Binary.ofLittleEndian bytes)).map
        fun x => ⟨op, x, start, o.selectorLength + bytes.length, o.name⟩,
        o.selectorLength + bytes.length) := by
  simp only [decodeOperand, hop, hwidth, List.take_left, lt_irrefl, if_false]

theorem decodeOperand_append {x : Operand Place} (rest : List UInt8) (hop : o.op = some op)
    (h : s.ReadAs o op (start + (o.selectorLength + bytes.length)) bytes x) :
    s.decodeOperand start o (bytes ++ rest) =
      (.ok ⟨op, x, start, o.selectorLength + bytes.length, o.name⟩,
        o.selectorLength + bytes.length) := by
  rw [decodeOperand_bytes s start rest hop h.1, h.2]
  rfl

/-- The operand bytes of what is decoded. -/
theorem exists_operandBytes (h : s.decodeOperand start o bytes = (.ok r, n)) :
    ∃ operandBytes rest, bytes = operandBytes ++ rest ∧ o.op = some r.op ∧
      n = o.selectorLength + operandBytes.length ∧ r.offset = start ∧ r.size = n ∧
      r.name = o.name ∧ s.ReadAs o r.op (start + n) operandBytes r.operand := by
  unfold decodeOperand at h
  split at h
  · cases h
  · rename_i op hop
    split at h
    · cases h
    · rename_i width hwidth
      dsimp only at h
      split at h
      · cases h
      · rename_i hlength
        obtain ⟨hr, rfl⟩ := Prod.mk.inj h
        have htake : (bytes.take width).length = width := by
          rw [List.length_take] at hlength ⊢
          omega
        obtain ⟨operand, hv, rfl⟩ := map_eq_ok.mp hr
        refine ⟨bytes.take width, bytes.drop width, (List.take_append_drop ..).symm, hop, ?_⟩
        rw [ReadAs, htake]
        exact ⟨rfl, rfl, rfl, rfl, hwidth, hv⟩

end Scope

/-! ## Arguments as chunks -/

theorem Opcode.integerBytes_ok {width : Nat} {fits : Int → Bool} {v : Int} :
    o.integerBytes width fits v = .ok c ↔
      fits v = true ∧ c = .bytes (Binary.littleEndian width (BitVec.ofInt (8 * width) v).toNat) := by
  unfold Opcode.integerBytes
  split
  · simp [*, eq_comm]
  · simp [*]

abbrev Chunk.word (w : Nat) (x : BitVec (8 * w)) : Chunk := .bytes (Binary.littleEndian w x.toNat)

/-- How an opcode writes its argument at a position. -/
inductive Opcode.Writes (o : Opcode) (position : Nat) : Arg → Chunk → Prop
  | none : o.operand = .none → Writes o position .none (.bytes [])
  | shortVar {v : Int} : o.operand = .shortVar → Text.fitsUnsigned 8 v = true →
      Writes o position (.int v) (.word 1 (BitVec.ofInt 8 v))
  | var {v : Int} : o.operand = .var → Text.fitsUnsigned 16 v = true →
      Writes o position (.int v) (.word 2 (BitVec.ofInt 16 v))
  | shortI {v : Int} : o.operand = .shortI → Text.fitsSigned 8 v = true →
      Writes o position (.int v) (.word 1 (BitVec.ofInt 8 v))
  | i {v : Int} : o.operand = .i → Text.fitsSigned 32 v = true →
      Writes o position (.int v) (.word 4 (BitVec.ofInt 32 v))
  | i8 {v : Int} : o.operand = .i8 → Writes o position (.int v) (.word 8 (BitVec.ofInt 64 v))
  | r4 {b : BitVec 64} : o.operand = .r4 →
      Writes o position (.float b) (.word 4 (Binary.narrow b))
  | r {b : BitVec 64} : o.operand = .r → Writes o position (.float b) (.word 8 b)
  | token {t : Nat} : o.operand ∈ [.field, .method, .type, .string] →
      Writes o position (.token t) (.bytes (Binary.littleEndian 4 t))
  | shortTarget {v : Int} : o.operand = .shortTarget → Text.fitsSigned 8 v = true →
      Writes o position (.displacement v) (.word 1 (BitVec.ofInt 8 v))
  | target {v : Int} : o.operand = .target →
      Writes o position (.displacement v) (.word 4 (BitVec.ofInt 32 v))
  | shortLabel {name : String} : o.operand = .shortTarget →
      Writes o position (.label name) (.branch true name (position + 1) o.name)
  | label {name : String} : o.operand = .target →
      Writes o position (.label name) (.branch false name (position + 4) o.name)

theorem Opcode.operandChunk_ok {position : Nat} {arg : Arg} :
    o.operandChunk position arg = .ok c ↔ o.Writes position arg c := by
  constructor
  · intro h
    unfold operandChunk at h
    split at h
    case h_1 hk => cases h; exact .none hk
    case h_2 v hk => obtain ⟨hfits, rfl⟩ := integerBytes_ok.mp h; exact .shortVar hk hfits
    case h_3 v hk => obtain ⟨hfits, rfl⟩ := integerBytes_ok.mp h; exact .var hk hfits
    case h_4 v hk => obtain ⟨hfits, rfl⟩ := integerBytes_ok.mp h; exact .shortI hk hfits
    case h_5 v hk => obtain ⟨hfits, rfl⟩ := integerBytes_ok.mp h; exact .i hk hfits
    case h_6 v hk => cases h; exact .i8 hk
    case h_7 b hk => cases h; exact .r4 hk
    case h_8 b hk => cases h; exact .r hk
    case h_9 v hk => obtain ⟨hfits, rfl⟩ := integerBytes_ok.mp h; exact .shortTarget hk hfits
    case h_10 v hk => cases h; exact .target hk
    case h_11 name hk => cases h; exact .shortLabel hk
    case h_12 name hk => cases h; exact .label hk
    case h_17 => cases h
    all_goals cases h; exact .token (by simp [*])
  · intro h
    cases h with
    | none hk | i8 hk | r4 hk | r hk | target hk | shortLabel hk | label hk =>
      simp only [operandChunk, hk]
    | shortVar hk hfits | var hk hfits | shortI hk hfits | i hk hfits | shortTarget hk hfits =>
      simp only [operandChunk, hk]
      exact integerBytes_ok.mpr ⟨hfits, rfl⟩
    | token hk =>
      simp only [List.mem_cons, List.not_mem_nil, or_false] at hk
      rcases hk with hk | hk | hk | hk <;> simp only [operandChunk, hk]

/-! ## Meaning of arguments -/

/-- Tokens and distances have 32 bits. -/
def Arg.Ranged : Arg → Prop
  | .token t => t < 2 ^ 32
  | .displacement v => Text.fitsSigned 32 v = true
  | _ => True

namespace Scope

variable {α : Type} {name : String} {t bits : Nat} {v : Int} {bytes : List UInt8}

def slot? (s : Scope) (op : Op) (index : Int) : Option (Operand Place) :=
  match op with
  | .ldarg | .ldarga | .starg =>
    if 0 ≤ index ∧ index < s.arguments then some (.ref (.argument index.toNat)) else none
  | _ => if 0 ≤ index ∧ index < s.locals then some (.ref (.localVar index.toNat)) else none

def target? (s : Scope) (offset : Int) : Option (Operand Place) :=
  if 0 ≤ offset ∧ offset < s.length then some (.ref (.target offset.toNat)) else none

/-- What the argument of an instruction that ends at `stop` means: a number, a float, a variable
in range, an entity that a token resolves to, or a place inside the code. -/
def denote? (s : Scope) (labels : List (String × Nat)) (o : Opcode) (op : Op) (stop : Nat) :
    Arg → Option (Operand Place)
  | .none =>
    match o.implied with
    | .none => some .none
    | .int v => some (.int32 (BitVec.ofInt 32 v))
    | .index i => s.slot? op i
  | .int v =>
    match o.operand with
    | .shortVar | .var => s.slot? op v
    | .i8 => some (.int64 (BitVec.ofInt 64 v))
    | _ => some (.int32 (BitVec.ofInt 32 v))
  | .float bits =>
    match o.operand with
    | .r4 => some (.float32 (Binary.narrow bits))
    | _ => some (.float64 bits)
  | .token t =>
    match o.operand with
    | .field => (s.resolver.field t).map .field
    | .method => (s.resolver.method t).map .method
    | .type => (s.resolver.type t).map .type
    | _ => (s.resolver.string t).map .string
  | .label name => (labels.lookup name).bind fun t => s.target? t
  | .displacement v => s.target? (stop + v)

variable {s : Scope} {labels : List (String × Nat)} {o : Opcode} {op : Op} {stop : Nat}
  {x : Operand Place}

theorem toOption_variableAt (s : Scope) (name : String) (op : Op) (index : Nat) :
    (s.variableAt name op index).toOption = s.slot? op index := by
  unfold variableAt slot?
  split <;> split <;> simp_all [Except.toOption]

theorem toOption_target (s : Scope) (name : String) (stop : Nat) (displacement : Int) :
    (s.target name stop displacement).toOption = s.target? (stop + displacement) := by
  unfold target target?
  dsimp only
  split <;> rfl

theorem toOption_resolve (name : String) (token : Nat) (wrap : α → Operand Place) (found : Option α) :
    (resolve name token wrap found).toOption = found.map wrap := by
  cases found <;> rfl

theorem variableAt_of_slot? {index : Nat} (h : s.slot? op index = some x) :
    s.variableAt name op index = .ok x :=
  toOption_eq_some.mp ((toOption_variableAt s name op index).trans h)

theorem target_of_target? {displacement : Int} (h : s.target? (stop + displacement) = some x) :
    s.target name stop displacement = .ok x :=
  toOption_eq_some.mp ((toOption_target s name stop displacement).trans h)

theorem resolve_of_map {token : Nat} {wrap : α → Operand Place} {found : Option α}
    (h : found.map wrap = some x) : resolve name token wrap found = .ok x :=
  toOption_eq_some.mp ((toOption_resolve name token wrap found).trans h)

theorem toNat_of_unsigned (h : Text.fitsUnsigned bits v = true) :
    ((BitVec.ofInt bits v).toNat : Int) = v := by
  simp only [Text.fitsUnsigned, decide_eq_true_eq, Nat.pow_eq] at h
  rw [BitVec.toNat_ofInt, Int.toNat_of_nonneg (Int.emod_nonneg _ (by positivity))]
  exact Int.emod_eq_of_lt h.1 (by exact_mod_cast h.2)

/-- The variable of an unsigned index. -/
theorem variableAt_of_unsigned (hfits : Text.fitsUnsigned bits v = true)
    (h : s.slot? op v = some x) : s.variableAt name op (BitVec.ofInt bits v).toNat = .ok x := by
  apply variableAt_of_slot?
  rw [toNat_of_unsigned hfits]
  exact h

/-- The target of a signed distance. -/
theorem target_of_signed (hbits : 0 < bits) (hfits : Text.fitsSigned bits v = true)
    (h : s.target? (stop + v) = some x) :
    s.target name stop (BitVec.ofNat bits (BitVec.ofInt bits v).toNat).toInt = .ok x := by
  rw [BitVec.ofNat_toNat, BitVec.setWidth_eq, Text.toInt_ofInt hbits hfits]
  exact target_of_target? h

/-- A label inside the code is at a distance that has 32 bits. -/
theorem fitsSigned_label (hlength : s.length < 2 ^ 31) (hstop : stop < 2 ^ 31)
    (h : s.target? t = some x) : Text.fitsSigned 32 ((t : Int) - stop) = true := by
  unfold target? at h
  split at h
  · simp only [Text.fitsSigned, decide_eq_true_eq]
    norm_num
    omega
  · cases h

/-- The bytes of a branch to a label are those of its distance. -/
theorem resolve_branch {short : Bool} {opcode : String} (ht : labels.lookup name = some t)
    (h : (Chunk.branch short name stop opcode).resolve labels = .ok bytes) :
    bytes = Binary.littleEndian (if short then 1 else 4)
        (BitVec.ofInt (8 * (if short then 1 else 4)) (t - stop)).toNat ∧
      (short = true → Text.fitsSigned 8 ((t : Int) - stop) = true) := by
  simp only [Chunk.resolve, ht] at h
  cases short with
  | false =>
    cases h
    exact ⟨rfl, nofun⟩
  | true =>
    simp only [if_true] at h
    split at h
    · rename_i hfits
      cases h
      exact ⟨rfl, fun _ => hfits⟩
    · cases h

/-! ## Arguments as bytes -/

/-- A word is read by its bits. -/
theorem readAs_word {w : Nat} {v : BitVec (8 * w)} (hwidth : o.operand.width? = some w)
    (h : s.operand o op stop v.toNat = .ok x) :
    s.ReadAs o op stop (Binary.littleEndian w v.toNat) x := by
  constructor
  · rw [hwidth, Binary.length_littleEndian]
  · rw [Binary.ofLittleEndian_toNat]
    exact h

/-- The place of a label, by its distance. -/
theorem target?_of_label (h : s.denote? labels o op stop (.label name) = some x) :
    ∃ t : Nat, labels.lookup name = some t ∧ s.target? t = some x ∧
      s.target? (stop + ((t : Int) - stop)) = some x := by
  obtain ⟨t, ht, htarget⟩ := Option.bind_eq_some_iff.mp h
  have hsum : (stop : Int) + (t - stop) = t := by omega
  exact ⟨t, ht, htarget, by rw [hsum]; exact htarget⟩

/-- What is written for an argument is read as what the argument means. -/
theorem readAs_of_writes {position : Nat} {arg : Arg} (hwrites : o.Writes position arg c)
    (hbytes : c.resolve labels = .ok bytes) (hranged : arg.Ranged)
    (hstop : stop = position + c.length) (hlength : s.length < 2 ^ 31) (hlt : stop < 2 ^ 31)
    (h : s.denote? labels o op stop arg = some x) : s.ReadAs o op stop bytes x := by
  cases hwrites with
  | none hk =>
    cases hbytes
    refine ⟨by rw [hk]; rfl, ?_⟩
    cases himplied : o.implied with
    | none | int v =>
      simp only [denote?, himplied, Option.some.injEq] at h
      simp only [operand, hk, himplied, h]
    | index i =>
      simp only [denote?, himplied] at h
      simp only [operand, hk, himplied]
      exact variableAt_of_slot? h
  | shortVar hk hfits | var hk hfits =>
    cases hbytes
    simp only [denote?, hk] at h
    apply readAs_word (by rw [hk]; rfl)
    simp only [operand, hk]
    exact variableAt_of_unsigned hfits h
  | @shortI v hk hfits =>
    cases hbytes
    simp only [denote?, hk, Option.some.injEq] at h
    have hword : (BitVec.ofInt 8 v).signExtend 32 = BitVec.ofInt 32 v :=
      congrArg (BitVec.ofInt 32) (Text.toInt_ofInt (by decide) hfits)
    apply readAs_word (by rw [hk]; rfl)
    simp only [operand, hk, ← h, Nat.reduceMul, BitVec.ofNat_toNat, BitVec.setWidth_eq, hword]
  | i hk | i8 hk | r4 hk | r hk =>
    cases hbytes
    simp only [denote?, hk, Option.some.injEq] at h
    apply readAs_word (by rw [hk]; rfl)
    simp only [operand, hk, ← h, Nat.reduceMul, BitVec.ofNat_toNat, BitVec.setWidth_eq]
  | @token t hk =>
    cases hbytes
    have hread : Binary.ofLittleEndian (Binary.littleEndian 4 t) = t := by
      rw [Binary.ofLittleEndian_littleEndian]
      exact Nat.mod_eq_of_lt hranged
    simp only [List.mem_cons, List.not_mem_nil, or_false] at hk
    rcases hk with hk | hk | hk | hk
    all_goals simp only [denote?, hk] at h
    all_goals refine ⟨by rw [hk, Binary.length_littleEndian]; rfl, ?_⟩
    all_goals simp only [operand, hk, hread]
    all_goals exact resolve_of_map h
  | shortTarget hk hfits =>
    cases hbytes
    apply readAs_word (by rw [hk]; rfl)
    simp only [operand, hk]
    exact target_of_signed (by decide) hfits h
  | target hk =>
    cases hbytes
    apply readAs_word (by rw [hk]; rfl)
    simp only [operand, hk]
    exact target_of_signed (by decide) hranged h
  | shortLabel hk =>
    obtain rfl : stop = position + 1 := hstop
    obtain ⟨t, ht, -, htarget⟩ := target?_of_label h
    obtain ⟨rfl, hfits⟩ := resolve_branch ht hbytes
    apply readAs_word (w := 1) (by rw [hk]; rfl)
    simp only [operand, hk]
    exact target_of_signed (by decide) (hfits rfl) htarget
  | label hk =>
    -- a long distance is cut to 32 bits, which loses nothing inside the code
    obtain rfl : stop = position + 4 := hstop
    obtain ⟨t, ht, hinside, htarget⟩ := target?_of_label h
    obtain ⟨rfl, -⟩ := resolve_branch ht hbytes
    apply readAs_word (w := 4) (by rw [hk]; rfl)
    simp only [operand, hk]
    exact target_of_signed (by decide) (fitsSigned_label hlength hlt hinside) htarget

end Scope

theorem Chunk.length_of_resolve {labels : List (String × Nat)} {bytes : List UInt8}
    (h : c.resolve labels = .ok bytes) : bytes.length = c.length := by
  cases c with
  | bytes bs =>
    cases h
    rfl
  | branch short name stop opcode =>
    cases ht : labels.lookup name with
    | none => simp [Chunk.resolve, ht] at h
    | some t =>
      obtain ⟨rfl, -⟩ := Scope.resolve_branch ht h
      rw [Binary.length_littleEndian, Chunk.length]

/-! ## Records as arguments -/

namespace Record

/-- The operand is no float and nothing that a token resolves to. -/
def isBare (r : Record) : Bool :=
  match r.operand with
  | .float32 _ | .float64 _ | .field _ | .method _ | .type _ | .string _ => false
  | _ => true

def operandArg (r : Record) : Arg :=
  match r.operand with
  | .int32 v => .int v.toInt
  | .int64 v => .int v.toInt
  | .ref (.localVar i) | .ref (.argument i) => .int i
  | .ref (.target t) => .displacement (t - r.stop)
  | _ => .none

/-- The argument to assemble a record with. An opcode that implies its operand takes none. -/
def arg (r : Record) : Arg :=
  if (Opcode.ofName? r.name).any (·.operand = .none) then .none else r.operandArg

end Record

namespace Opcode

variable {width : Nat} {bytes : List UInt8}

theorem integerBytes_unsigned (o : Opcode) (h : bytes.length = width) :
    o.integerBytes width (Text.fitsUnsigned (8 * width)) (Binary.ofLittleEndian bytes) =
      .ok (.bytes bytes) := by
  have hfits : Text.fitsUnsigned (8 * width) (Binary.ofLittleEndian bytes) = true := by
    have hlt := Binary.ofLittleEndian_lt bytes
    rw [h] at hlt
    simp only [Text.fitsUnsigned, decide_eq_true_eq, Nat.pow_eq, Nat.pow_mul]
    exact ⟨by omega, by exact_mod_cast hlt⟩
  rw [integerBytes, if_pos hfits, BitVec.ofInt_natCast, Binary.littleEndian_toNat h]

theorem integerBytes_signed (o : Opcode) (h : bytes.length = width) :
    o.integerBytes width (Text.fitsSigned (8 * width))
        (BitVec.ofNat (8 * width) (Binary.ofLittleEndian bytes)).toInt = .ok (.bytes bytes) := by
  rw [integerBytes, if_pos (Text.fitsSigned_toInt _), BitVec.ofInt_toInt,
    Binary.littleEndian_toNat h]

end Opcode

namespace Scope

variable {s : Scope}

theorem target_eq {name : String} {stop : Nat} {displacement : Int} {x : Operand Place}
    (h : s.target name stop displacement = .ok x) :
    ∃ t : Nat, x = .ref (.target t) ∧ (t : Int) - stop = displacement := by
  unfold target at h
  dsimp only at h
  split at h
  · cases h
    exact ⟨_, rfl, by omega⟩
  · cases h

/-- The argument of a record gives the operand bytes that it was read from. -/
theorem operandChunk_arg {r : Record} {bytes : List UInt8} (ho : o ∈ Opcode.table)
    (hname : r.name = o.name) (hread : s.ReadAs o r.op r.stop bytes r.operand)
    (hbare : r.isBare = true) (position : Nat) :
    o.operandChunk position r.arg = .ok (.bytes bytes) := by
  obtain ⟨hwidth, h⟩ := hread
  have harg : r.arg = if o.operand = .none then .none else r.operandArg := by
    simp [Record.arg, hname, Opcode.ofName?_name ho]
  unfold Record.isBare at hbare
  cases hk : o.operand with
  | none =>
    rw [hk] at hwidth
    obtain rfl := List.length_eq_zero_iff.mp (Option.some.inj hwidth).symm
    simp [harg, Opcode.operandChunk, hk]
  | shortVar | var =>
    rw [hk] at hwidth
    simp only [operand, hk] at h
    have harg' : r.arg = .int (Binary.ofLittleEndian bytes) := by
      rcases variableAt_ok h with ⟨hx, -⟩ | ⟨hx, -⟩ <;>
        simp [harg, hk, Record.operandArg, hx]
    simp only [Opcode.operandChunk, hk, harg']
    exact o.integerBytes_unsigned (Option.some.inj hwidth).symm
  | shortI =>
    rw [hk] at hwidth
    simp only [operand, hk, Except.ok.injEq] at h
    have harg' : r.arg = .int (BitVec.ofNat 8 (Binary.ofLittleEndian bytes)).toInt := by
      rw [harg, Record.operandArg, ← h]
      simp [hk, BitVec.toInt_signExtend_of_le]
    simp only [Opcode.operandChunk, hk, harg']
    exact o.integerBytes_signed (Option.some.inj hwidth).symm
  | i =>
    rw [hk] at hwidth
    simp only [operand, hk, Except.ok.injEq] at h
    have harg' : r.arg = .int (BitVec.ofNat 32 (Binary.ofLittleEndian bytes)).toInt := by
      rw [harg, Record.operandArg, ← h]
      simp [hk]
    simp only [Opcode.operandChunk, hk, harg']
    exact o.integerBytes_signed (Option.some.inj hwidth).symm
  | i8 =>
    rw [hk] at hwidth
    simp only [operand, hk, Except.ok.injEq] at h
    have harg' : r.arg = .int (BitVec.ofNat 64 (Binary.ofLittleEndian bytes)).toInt := by
      rw [harg, Record.operandArg, ← h]
      simp [hk]
    simp only [Opcode.operandChunk, hk, harg', BitVec.ofInt_toInt]
    exact congrArg (fun bs => Except.ok (Chunk.bytes bs))
      (Binary.littleEndian_toNat (Option.some.inj hwidth).symm)
  | shortTarget =>
    rw [hk] at hwidth
    simp only [operand, hk] at h
    obtain ⟨t, hx, ht⟩ := target_eq h
    have harg' : r.arg = .displacement (BitVec.ofNat 8 (Binary.ofLittleEndian bytes)).toInt := by
      rw [harg, Record.operandArg, hx, ← ht]
      simp [hk]
    simp only [Opcode.operandChunk, hk, harg']
    exact o.integerBytes_signed (Option.some.inj hwidth).symm
  | target =>
    rw [hk] at hwidth
    simp only [operand, hk] at h
    obtain ⟨t, hx, ht⟩ := target_eq h
    have harg' : r.arg = .displacement (BitVec.ofNat 32 (Binary.ofLittleEndian bytes)).toInt := by
      rw [harg, Record.operandArg, hx, ← ht]
      simp [hk]
    simp only [Opcode.operandChunk, hk, harg', BitVec.ofInt_toInt]
    exact congrArg (fun bs => Except.ok (Chunk.bytes bs))
      (Binary.littleEndian_toNat (Option.some.inj hwidth).symm)
  | switch => simp [operand, hk] at h
  | r4 | r =>
    simp only [operand, hk, Except.ok.injEq] at h
    simp [← h] at hbare
  | field | method | type | string =>
    simp only [operand, hk] at h
    obtain ⟨y, hy⟩ := resolve_ok h
    simp [hy] at hbare

end Scope

end SpuCompiler.Bytecode
