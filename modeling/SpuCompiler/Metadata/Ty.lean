import SpuCompiler.Binary.Align

/-!
Types of the source program. A class or a value type carries its definition, with fields at
fixed offsets; `TypeDef.sequential` lays the fields out in order of declaration.
Equality of types is structural, down to the fields of the definitions.
-/

namespace SpuCompiler.Metadata

/-- Types without parts. -/
inductive Basic where
  | void | bool | char | i1 | u1 | i2 | u2 | i4 | u4 | i8 | u8 | i | u | r4 | r8
  | object | string
  deriving DecidableEq

mutual

inductive Ty where
  | basic (b : Basic)
  | reference (definition : TypeDef)
  | struct (definition : TypeDef)
  | array (element : Ty)
  | byRef (pointee : Ty)

structure TypeDef where
  name : String
  fields : List Field
  size : Nat

structure Field where
  name : String
  declaring : String
  ty : Ty
  offset : Nat
  isStatic : Bool

end

namespace Basic

/-- Bytes of storage. References are 32-bit addresses. -/
def size : Basic → Nat
  | .void => 0
  | .bool | .i1 | .u1 => 1
  | .char | .i2 | .u2 => 2
  | .i4 | .u4 | .r4 | .i | .u | .object | .string => 4
  | .i8 | .u8 | .r8 => 8

def name : Basic → String
  | .void => "void"
  | .bool => "bool"
  | .char => "char"
  | .i1 => "int8"
  | .u1 => "uint8"
  | .i2 => "int16"
  | .u2 => "uint16"
  | .i4 => "int32"
  | .u4 => "uint32"
  | .i8 => "int64"
  | .u8 => "uint64"
  | .i => "native int"
  | .u => "native uint"
  | .r4 => "float32"
  | .r8 => "float64"
  | .object => "object"
  | .string => "string"

end Basic

namespace Ty

@[match_pattern] abbrev void : Ty := .basic .void
@[match_pattern] abbrev bool : Ty := .basic .bool
@[match_pattern] abbrev i1 : Ty := .basic .i1
@[match_pattern] abbrev u1 : Ty := .basic .u1
@[match_pattern] abbrev i2 : Ty := .basic .i2
@[match_pattern] abbrev u2 : Ty := .basic .u2
@[match_pattern] abbrev i4 : Ty := .basic .i4
@[match_pattern] abbrev u4 : Ty := .basic .u4
@[match_pattern] abbrev i8 : Ty := .basic .i8
@[match_pattern] abbrev i : Ty := .basic .i
@[match_pattern] abbrev r4 : Ty := .basic .r4
@[match_pattern] abbrev r8 : Ty := .basic .r8
@[match_pattern] abbrev object : Ty := .basic .object
@[match_pattern] abbrev string : Ty := .basic .string

/-- Bytes of storage. -/
def size : Ty → Nat
  | .basic b => b.size
  | .struct d => d.size
  | .reference _ | .array _ | .byRef _ => 4

def isValueType : Ty → Bool
  | .struct _ => true
  | _ => false

def name : Ty → String
  | .basic b => b.name
  | .reference d | .struct d => d.name
  | .array e => e.name ++ "[]"
  | .byRef p => p.name ++ "&"

end Ty

namespace Field

/-- A field without an instance. -/
def static (declaring name : String) (ty : Ty) : Field := ⟨name, declaring, ty, 0, true⟩

/-- The name of the object that holds a static field. -/
def symbol (f : Field) : String := f.declaring ++ "::" ++ f.name

end Field

namespace TypeDef

/-- The size of a type rounded up to a power of two from 1 to 16. -/
def alignment (size : Nat) : Nat :=
  if size ≤ 1 then 1 else if size ≤ 2 then 2 else if size ≤ 4 then 4
  else if size ≤ 8 then 8 else 16

/-- Fields from offset `start` on, each at the next multiple of its alignment, and the end of
the last one. -/
def layOut (declaring : String) (start : Nat) : List (String × Ty) → List Field × Nat
  | [] => ([], start)
  | (name, ty) :: rest =>
    let offset := Binary.alignUp start (alignment ty.size)
    let (fields, stop) := layOut declaring (offset + ty.size) rest
    (⟨name, declaring, ty, offset, false⟩ :: fields, stop)

/-- Fields in order of declaration at their natural alignment. The whole is a positive number
of quadwords. -/
def sequential (name : String) (fields : List (String × Ty)) : TypeDef :=
  let (laidOut, stop) := layOut name 0 fields
  ⟨name, laidOut, max (Binary.alignUp stop 16) 16⟩

def field? (d : TypeDef) (name : String) : Option Field := d.fields.find? (·.name == name)

end TypeDef

mutual

def Ty.decEq : (a b : Ty) → Decidable (a = b)
  | .basic x, .basic y =>
    match decEq x y with
    | isTrue h => isTrue (h ▸ rfl)
    | isFalse h => isFalse fun k => h (Ty.basic.inj k)
  | .reference x, .reference y =>
    match TypeDef.decEq x y with
    | isTrue h => isTrue (h ▸ rfl)
    | isFalse h => isFalse fun k => h (Ty.reference.inj k)
  | .struct x, .struct y =>
    match TypeDef.decEq x y with
    | isTrue h => isTrue (h ▸ rfl)
    | isFalse h => isFalse fun k => h (Ty.struct.inj k)
  | .array x, .array y =>
    match Ty.decEq x y with
    | isTrue h => isTrue (h ▸ rfl)
    | isFalse h => isFalse fun k => h (Ty.array.inj k)
  | .byRef x, .byRef y =>
    match Ty.decEq x y with
    | isTrue h => isTrue (h ▸ rfl)
    | isFalse h => isFalse fun k => h (Ty.byRef.inj k)
  | .basic _, .reference _ | .basic _, .struct _ | .basic _, .array _ | .basic _, .byRef _
  | .reference _, .basic _ | .reference _, .struct _ | .reference _, .array _
  | .reference _, .byRef _ | .struct _, .basic _ | .struct _, .reference _
  | .struct _, .array _ | .struct _, .byRef _ | .array _, .basic _ | .array _, .reference _
  | .array _, .struct _ | .array _, .byRef _ | .byRef _, .basic _ | .byRef _, .reference _
  | .byRef _, .struct _ | .byRef _, .array _ => isFalse nofun
termination_by structural a => a

def TypeDef.decEq : (a b : TypeDef) → Decidable (a = b)
  | ⟨n, fs, s⟩, ⟨n', fs', s'⟩ =>
    match decEq n n', Field.decEqList fs fs', decEq s s' with
    | isTrue hn, isTrue hf, isTrue hs => isTrue (by rw [hn, hf, hs])
    | isFalse h, _, _ => isFalse fun k => h (TypeDef.mk.inj k).1
    | _, isFalse h, _ => isFalse fun k => h (TypeDef.mk.inj k).2.1
    | _, _, isFalse h => isFalse fun k => h (TypeDef.mk.inj k).2.2
termination_by structural a => a

def Field.decEq : (a b : Field) → Decidable (a = b)
  | ⟨n, d, t, o, s⟩, ⟨n', d', t', o', s'⟩ =>
    match Ty.decEq t t', decEq (n, d, o, s) (n', d', o', s') with
    | isTrue ht, isTrue h => isTrue (by simp_all)
    | isFalse h, _ => isFalse fun k => h (Field.mk.inj k).2.2.1
    | _, isFalse h => isFalse fun k => h (by simp_all)
termination_by structural a => a

def Field.decEqList : (a b : List Field) → Decidable (a = b)
  | [], [] => isTrue rfl
  | [], _ :: _ | _ :: _, [] => isFalse nofun
  | x :: xs, y :: ys =>
    match Field.decEq x y, Field.decEqList xs ys with
    | isTrue hx, isTrue hxs => isTrue (by rw [hx, hxs])
    | isFalse h, _ => isFalse fun k => h (List.cons.inj k).1
    | _, isFalse h => isFalse fun k => h (List.cons.inj k).2
termination_by structural a => a

end

instance : DecidableEq Ty := Ty.decEq
instance : DecidableEq TypeDef := TypeDef.decEq
instance : DecidableEq Field := Field.decEq

end SpuCompiler.Metadata
