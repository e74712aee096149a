import SpuCompiler.Text.Hex

/-!
Options of a compilation: where the program is placed, which registers carry arguments, and how
large the bottom of a frame and the local store are.
-/

namespace SpuCompiler

structure Options where
  /-- The address of the first placed object. -/
  baseAddress : Nat := 0
  firstArgumentRegister : Nat := 3
  argumentRegisterCount : Nat := 72
  /-- Back chain and saved link register at the bottom of every frame. -/
  linkAreaSize : Nat := 32
  localStoreSize : Nat := 0x40000
  deriving DecidableEq

inductive OptionsError where
  | misalignedBase (address : Nat)
  | reservedRegister (register : Nat)
  | registersPastEnd
  | linkArea (size : Nat)
  | localStore (size base : Nat)
  deriving DecidableEq

namespace Options

/-- Registers below this one are the link register, the stack pointer and a scratch register. -/
def firstAllocatableRegister : Nat := 3

def registerCount : Nat := 128

/-- Checks the options in a fixed order. -/
def validate (o : Options) : Except OptionsError Unit :=
  if o.baseAddress % 16 ≠ 0 then .error (.misalignedBase o.baseAddress)
  else if o.firstArgumentRegister < firstAllocatableRegister then
    .error (.reservedRegister o.firstArgumentRegister)
  else if registerCount < o.firstArgumentRegister + o.argumentRegisterCount then
    .error .registersPastEnd
  else if o.linkAreaSize < 32 ∨ o.linkAreaSize % 16 ≠ 0 then .error (.linkArea o.linkAreaSize)
  else if o.localStoreSize % 16 ≠ 0 ∨ o.localStoreSize ≤ o.baseAddress then
    .error (.localStore o.localStoreSize o.baseAddress)
  else .ok ()

/-- The register of an argument, for the slots that have one. -/
def argumentRegister (o : Options) (slot : Nat) : Option Nat :=
  if slot < o.argumentRegisterCount then some (o.firstArgumentRegister + slot) else none

/-- The register of a returned value. -/
def returnRegister (o : Options) : Nat := o.firstArgumentRegister

/-- The names of the options. -/
inductive Key where
  | baseAddress | firstArgumentRegister | argumentRegisterCount | linkAreaSize | localStoreSize
  deriving DecidableEq

namespace Key

def all : List Key :=
  [.baseAddress, .firstArgumentRegister, .argumentRegisterCount, .linkAreaSize, .localStoreSize]

def name : Key → String
  | .baseAddress => "base_address"
  | .firstArgumentRegister => "first_argument_register"
  | .argumentRegisterCount => "argument_register_count"
  | .linkAreaSize => "link_area_size"
  | .localStoreSize => "local_store_size"

def ofName? (name : String) : Option Key := all.find? (·.name = name)

/-- Register numbers are bytes, sizes and addresses words. -/
def limit : Key → Nat
  | .firstArgumentRegister | .argumentRegisterCount => 0x100
  | .baseAddress | .linkAreaSize | .localStoreSize => 0x100000000

def get (o : Options) : Key → Nat
  | .baseAddress => o.baseAddress
  | .firstArgumentRegister => o.firstArgumentRegister
  | .argumentRegisterCount => o.argumentRegisterCount
  | .linkAreaSize => o.linkAreaSize
  | .localStoreSize => o.localStoreSize

/-- Options with one value replaced. -/
def put (o : Options) (value : Nat) : Key → Options
  | .baseAddress => { o with baseAddress := value }
  | .firstArgumentRegister => { o with firstArgumentRegister := value }
  | .argumentRegisterCount => { o with argumentRegisterCount := value }
  | .linkAreaSize => { o with linkAreaSize := value }
  | .localStoreSize => { o with localStoreSize := value }

end Key

/-- The options as a JSON object, one member a line. -/
def text (o : Options) : String :=
  let member (k : Key) : String := s!"  \"{k.name}\": {k.get o}"
  "\x7b\n" ++ ",\n".intercalate (Key.all.map member) ++ "\n\x7d"

end Options

namespace OptionsError

def reason : OptionsError → String
  | .misalignedBase a => s!"base_address {Text.hex 1 a} is not quadword aligned"
  | .reservedRegister r => s!"first_argument_register ${r} overlaps reserved registers"
  | .registersPastEnd => s!"argument registers run past ${Options.registerCount - 1}"
  | .linkArea s => s!"link_area_size {s} must be a quadword multiple of at least 32"
  | .localStore s b =>
    s!"local_store_size {Text.hex 1 s} does not fit base_address {Text.hex 1 b}"

def message (e : OptionsError) : String := "invalid options: " ++ e.reason

end OptionsError

end SpuCompiler
