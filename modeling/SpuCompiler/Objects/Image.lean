import SpuCompiler.Binary.Bytes
import SpuCompiler.Objects.Arena

/-!
A placed program and its bytes. Words are written with the most significant byte first; bytes
that no object holds are zero.
-/

namespace SpuCompiler.Objects

open Machine

structure PlacedObject where
  id : ObjectId
  name : String
  kind : ObjectKind
  offset : Nat
  code : Array Instr
  data : List UInt8

structure Image where
  base : Nat
  size : Nat
  objects : List PlacedObject

namespace PlacedObject

/-- Words of the instructions from number `index` on. -/
def encodeFrom (name : String) (map : RegisterMap) (index : Nat) :
    List Instr → Except LayoutError (List Word)
  | [] => .ok []
  | i :: is =>
    match i.encode map with
    | .error e => .error (.encode name index e)
    | .ok w => (encodeFrom name map (index + 1) is).map (w :: ·)

/-- Words of the code of an object. -/
def encode (o : PlacedObject) (map : RegisterMap) : Except LayoutError (List Word) :=
  encodeFrom o.name map 0 o.code.toList

/-- The bytes that an object puts into the image. -/
def bytes (o : PlacedObject) (map : RegisterMap) : Except LayoutError (List UInt8) :=
  match o.kind with
  | .block _ => (o.encode map).map fun ws => ws.flatMap fun w => Binary.bigEndian 4 w.toNat
  | .data => .ok o.data
  | .routine _ | .derived _ _ => .ok []

end PlacedObject

/-- Overwrites the bytes from `start` on. -/
def overwrite (out : Array UInt8) (start : Nat) : List UInt8 → Array UInt8
  | [] => out
  | b :: bs => overwrite (out.setIfInBounds start b) (start + 1) bs

namespace Image

def object? (image : Image) (name : String) : Option PlacedObject :=
  image.objects.find? (·.name == name)

/-- Writes objects into the bytes of the image. -/
def writeObjects (image : Image) (map : RegisterMap) (out : Array UInt8) :
    List PlacedObject → Except LayoutError (Array UInt8)
  | [] => .ok out
  | o :: os =>
    match o.bytes map with
    | .error e => .error e
    | .ok bs => image.writeObjects map (overwrite out (o.offset - image.base) bs) os

/-- All bytes of the image, from its base to its end. -/
def toBytes (image : Image) (map : RegisterMap) : Except LayoutError (Array UInt8) :=
  image.writeObjects map (Array.replicate image.size 0) image.objects

end Image

end SpuCompiler.Objects
