/-!
Opcodes of the target vector processor: their mnemonics, the layout of their instruction
words, the bits that select them, and the immediates they accept.
-/

namespace SpuCompiler.Machine

/-- Layouts of an instruction word, from the most significant bit down. -/
inductive Format where
  /-- Eleven opcode bits, `rb`, `ra`, `rt`. -/
  | rr
  /-- Four opcode bits, `rt`, `rb`, `ra`, `rc`. -/
  | rrr
  /-- Eleven opcode bits, a signed 7-bit immediate, `ra`, `rt`. -/
  | ri7
  /-- Ten opcode bits, an 8-bit immediate, `ra`, `rt`. -/
  | ri8
  /-- Eight opcode bits, a signed 10-bit immediate, `ra`, `rt`. -/
  | ri10
  /-- Nine opcode bits, a 16-bit immediate, `rt`. -/
  | ri16
  /-- Seven opcode bits, an unsigned 18-bit immediate, `rt`. -/
  | ri18
  /-- Eleven opcode bits, seven unused ones, a 14-bit signal. -/
  | stop
  /-- No word: placement replaces the instruction. -/
  | pseudo
  deriving DecidableEq

/-- How placement fills the immediate of an instruction that names an object. -/
inductive PatchKind where
  /-- The distance in words from the instruction to the object. -/
  | relativeWord
  /-- The byte address of the object. -/
  | absoluteByte
  deriving DecidableEq

/-- Target opcodes. `ret` stands for a return and has no word of its own. -/
inductive Opcode where
  | a | ah | sf | and | andc | or | xor | nor | mpy | mpyu | mpyh | ceq | cgt | clgt | shl
  | rot | rotm | rotma | rotqby | rotqmby | rotqmbi | fa | fs | fm | fceq | fcgt | frest | fi
  | dfa | dfs | dfm | fesd | frds | xsbh | xshw | lqx | stqx | bi | bisl | rdch | wrch | rchcnt
  | nop | lnop | stop | selb | shufb | fma | fnms | fms | shli | rotmi | rotmai | rotqbyi | cbd
  | chd | cwd | cdd | cflts | cfltu | csflt | cuflt | ai | sfi | andi | ori | xori | mpyi
  | ceqi | cgti | clgti | lqd | stqd | il | ilh | ilhu | iohl | fsmbi | br | bra | brsl | brasl
  | brnz | brz | brhnz | brhz | lqa | lqr | stqa | stqr | ila | ret
  deriving DecidableEq

namespace Opcode

/-- All opcodes, in the order of their declaration. -/
def all : List Opcode :=
  [.a, .ah, .sf, .and, .andc, .or, .xor, .nor, .mpy, .mpyu, .mpyh, .ceq, .cgt, .clgt, .shl, .rot,
   .rotm, .rotma, .rotqby, .rotqmby, .rotqmbi, .fa, .fs, .fm, .fceq, .fcgt, .frest, .fi, .dfa,
   .dfs, .dfm, .fesd, .frds, .xsbh, .xshw, .lqx, .stqx, .bi, .bisl, .rdch, .wrch, .rchcnt, .nop,
   .lnop, .stop, .selb, .shufb, .fma, .fnms, .fms, .shli, .rotmi, .rotmai, .rotqbyi, .cbd, .chd,
   .cwd, .cdd, .cflts, .cfltu, .csflt, .cuflt, .ai, .sfi, .andi, .ori, .xori, .mpyi, .ceqi,
   .cgti, .clgti, .lqd, .stqd, .il, .ilh, .ilhu, .iohl, .fsmbi, .br, .bra, .brsl, .brasl, .brnz,
   .brz, .brhnz, .brhz, .lqa, .lqr, .stqa, .stqr, .ila, .ret]

/-- Mnemonic, word layout and selecting bits. -/
def row : Opcode → String × Format × Nat
  | .a => ("a", .rr, 0x0c0)
  | .ah => ("ah", .rr, 0x0c8)
  | .sf => ("sf", .rr, 0x040)
  | .and => ("and", .rr, 0x0c1)
  | .andc => ("andc", .rr, 0x2c1)
  | .or => ("or", .rr, 0x041)
  | .xor => ("xor", .rr, 0x241)
  | .nor => ("nor", .rr, 0x049)
  | .mpy => ("mpy", .rr, 0x3c4)
  | .mpyu => ("mpyu", .rr, 0x3cc)
  | .mpyh => ("mpyh", .rr, 0x3c5)
  | .ceq => ("ceq", .rr, 0x3c0)
  | .cgt => ("cgt", .rr, 0x240)
  | .clgt => ("clgt", .rr, 0x2c0)
  | .shl => ("shl", .rr, 0x05b)
  | .rot => ("rot", .rr, 0x058)
  | .rotm => ("rotm", .rr, 0x059)
  | .rotma => ("rotma", .rr, 0x05a)
  | .rotqby => ("rotqby", .rr, 0x1dc)
  | .rotqmby => ("rotqmby", .rr, 0x1dd)
  | .rotqmbi => ("rotqmbi", .rr, 0x1d9)
  | .fa => ("fa", .rr, 0x2c4)
  | .fs => ("fs", .rr, 0x2c5)
  | .fm => ("fm", .rr, 0x2c6)
  | .fceq => ("fceq", .rr, 0x3c2)
  | .fcgt => ("fcgt", .rr, 0x2c2)
  | .frest => ("frest", .rr, 0x1b8)
  | .fi => ("fi", .rr, 0x3d4)
  | .dfa => ("dfa", .rr, 0x2cc)
  | .dfs => ("dfs", .rr, 0x2cd)
  | .dfm => ("dfm", .rr, 0x2ce)
  | .fesd => ("fesd", .rr, 0x3b8)
  | .frds => ("frds", .rr, 0x3b9)
  | .xsbh => ("xsbh", .rr, 0x2b6)
  | .xshw => ("xshw", .rr, 0x2ae)
  | .lqx => ("lqx", .rr, 0x1c4)
  | .stqx => ("stqx", .rr, 0x144)
  | .bi => ("bi", .rr, 0x1a8)
  | .bisl => ("bisl", .rr, 0x1a9)
  | .rdch => ("rdch", .rr, 0x00d)
  | .wrch => ("wrch", .rr, 0x10d)
  | .rchcnt => ("rchcnt", .rr, 0x00f)
  | .nop => ("nop", .rr, 0x201)
  | .lnop => ("lnop", .rr, 0x001)
  | .stop => ("stop", .stop, 0x000)
  | .selb => ("selb", .rrr, 0x8)
  | .shufb => ("shufb", .rrr, 0xb)
  | .fma => ("fma", .rrr, 0xe)
  | .fnms => ("fnms", .rrr, 0xd)
  | .fms => ("fms", .rrr, 0xf)
  | .shli => ("shli", .ri7, 0x07b)
  | .rotmi => ("rotmi", .ri7, 0x079)
  | .rotmai => ("rotmai", .ri7, 0x07a)
  | .rotqbyi => ("rotqbyi", .ri7, 0x1fc)
  | .cbd => ("cbd", .ri7, 0x1f4)
  | .chd => ("chd", .ri7, 0x1f5)
  | .cwd => ("cwd", .ri7, 0x1f6)
  | .cdd => ("cdd", .ri7, 0x1f7)
  | .cflts => ("cflts", .ri8, 0x1d8)
  | .cfltu => ("cfltu", .ri8, 0x1d9)
  | .csflt => ("csflt", .ri8, 0x1da)
  | .cuflt => ("cuflt", .ri8, 0x1db)
  | .ai => ("ai", .ri10, 0x1c)
  | .sfi => ("sfi", .ri10, 0x0c)
  | .andi => ("andi", .ri10, 0x14)
  | .ori => ("ori", .ri10, 0x04)
  | .xori => ("xori", .ri10, 0x44)
  | .mpyi => ("mpyi", .ri10, 0x74)
  | .ceqi => ("ceqi", .ri10, 0x7c)
  | .cgti => ("cgti", .ri10, 0x4c)
  | .clgti => ("clgti", .ri10, 0x5c)
  | .lqd => ("lqd", .ri10, 0x34)
  | .stqd => ("stqd", .ri10, 0x24)
  | .il => ("il", .ri16, 0x081)
  | .ilh => ("ilh", .ri16, 0x083)
  | .ilhu => ("ilhu", .ri16, 0x082)
  | .iohl => ("iohl", .ri16, 0x0c1)
  | .fsmbi => ("fsmbi", .ri16, 0x065)
  | .br => ("br", .ri16, 0x064)
  | .bra => ("bra", .ri16, 0x060)
  | .brsl => ("brsl", .ri16, 0x066)
  | .brasl => ("brasl", .ri16, 0x062)
  | .brnz => ("brnz", .ri16, 0x042)
  | .brz => ("brz", .ri16, 0x040)
  | .brhnz => ("brhnz", .ri16, 0x046)
  | .brhz => ("brhz", .ri16, 0x044)
  | .lqa => ("lqa", .ri16, 0x061)
  | .lqr => ("lqr", .ri16, 0x067)
  | .stqa => ("stqa", .ri16, 0x041)
  | .stqr => ("stqr", .ri16, 0x047)
  | .ila => ("ila", .ri18, 0x21)
  | .ret => ("ret", .pseudo, 0)

def mnemonic (op : Opcode) : String := op.row.1

def format (op : Opcode) : Format := op.row.2.1

def bits (op : Opcode) : Nat := op.row.2.2

def ofMnemonic? (name : String) : Option Opcode := all.find? (·.mnemonic == name)

def patchKind : Opcode → Option PatchKind
  | .br | .brsl | .brnz | .brz | .brhnz | .brhz | .lqr | .stqr => some .relativeWord
  | .ila => some .absoluteByte
  | _ => none

def isBranch : Opcode → Bool
  | .br | .bra | .brsl | .brasl | .brnz | .brz | .brhnz | .brhz | .bi | .bisl | .ret => true
  | _ => false

/-- Opcodes whose 16-bit immediate is read without a sign. -/
def hasUnsignedImmediate : Opcode → Bool
  | .ilhu | .iohl | .fsmbi | .ilh => true
  | _ => false

/-- The least and the greatest immediate, where the word has one. -/
def immediateRange (op : Opcode) : Option (Int × Int) :=
  match op.format with
  | .ri7 => some (-64, 63)
  | .ri8 => some (0, 255)
  | .ri10 => some (-512, 511)
  | .ri16 => if op.hasUnsignedImmediate then some (0, 0xFFFF) else some (-0x8000, 0x7FFF)
  | .ri18 => some (0, 0x3FFFF)
  | .stop => some (0, 0x3FFF)
  | .rr | .rrr | .pseudo => none

end Opcode

end SpuCompiler.Machine
