import SpuCompiler.Machine.Instr
import SpuCompiler.Text.Hex

/-!
Addressable objects of a program: routines, their blocks of code, data, and objects at a fixed
distance from another one. The arena owns them in order of creation, under distinct names, and
finds them by name in an index.
-/

namespace SpuCompiler.Objects

open Machine

/-- The place of an object in the order of creation. -/
abbrev ObjectId := Nat

inductive ObjectKind where
  | routine (epilogue : Option ObjectId)
  | block (routine : ObjectId)
  | data
  | derived (parent : ObjectId) (delta : Nat)
  deriving DecidableEq

structure Object where
  name : String
  kind : ObjectKind
  offset : Option Nat := none
  code : Array Instr := #[]
  data : List UInt8 := []
  /-- The size promised for the object, which placement checks. -/
  declaredSize : Option Nat := none

namespace Object

def alignment (o : Object) : Nat :=
  match o.kind with
  | .block _ => 4
  | _ => 16

/-- Routines and data are placed on their own. -/
def isTopLevel (o : Object) : Bool :=
  match o.kind with
  | .routine _ | .data => true
  | _ => false

/-- Whether the object is a block of the given routine. -/
def isBlockOf (o : Object) (routine : ObjectId) : Bool := o.kind = .block routine

/-- Bytes of the object itself. -/
def contentSize (o : Object) : Nat :=
  match o.kind with
  | .block _ => 4 * o.code.size
  | .data => o.data.length
  | .routine _ | .derived _ _ => 0

end Object

inductive LayoutError where
  | duplicateName (name : String)
  | unassigned (name : String)
  | alreadyAssigned (name : String) (offset : Nat)
  | misaligned (name : String) (offset alignment : Nat)
  | sizeMismatch (name : String) (declared actual : Nat)
  | unresolvedTarget (name : String) (index : Nat)
  | missingEpilogue (name : String)
  | emptyRoutine (name : String)
  | displacementOutOfRange (name : String) (index : Nat) (value : Int)
  | imageTooLarge (size limit : Nat)
  | encode (name : String) (index : Nat) (source : EncodeError)
  deriving DecidableEq

def LayoutError.message : LayoutError → String
  | .duplicateName n => s!"object '{n}' declared twice"
  | .unassigned n => s!"offset of '{n}' read before it was assigned"
  | .alreadyAssigned n o => s!"'{n}' already placed at {Text.hex 1 o}"
  | .misaligned n o a => s!"'{n}' at {Text.hex 1 o} is not {a}-byte aligned"
  | .sizeMismatch n d a => s!"'{n}' declared {d} bytes but holds {a}"
  | .unresolvedTarget n i => s!"'{n}' instruction {i} still names an IR block"
  | .missingEpilogue n => s!"'{n}' returns but its routine has no epilogue"
  | .emptyRoutine n => s!"'{n}' has no code; it was declared but never compiled"
  | .displacementOutOfRange n i v => s!"'{n}' instruction {i} displacement {v} does not fit"
  | .imageTooLarge s l =>
    s!"image of {Text.hex 1 s} bytes exceeds local store of {Text.hex 1 l}"
  | .encode n i e => s!"'{n}' instruction {i}: {e.message}"

structure Arena where
  objects : Array Object := #[]
  /-- The index of names, the latest first. -/
  names : List (String × ObjectId) := []

namespace Arena

def size (a : Arena) : Nat := a.objects.size

def get? (a : Arena) (id : ObjectId) : Option Object := a.objects[id]?

/-- The object with a name. -/
def find? (a : Arena) (name : String) : Option ObjectId := a.names.lookup name

/-- Adds an object and its name. -/
def push (a : Arena) (o : Object) : Arena := ⟨a.objects.push o, (o.name, a.size) :: a.names⟩

def insert (a : Arena) (o : Object) : Except LayoutError (ObjectId × Arena) :=
  if (a.find? o.name).isSome then .error (.duplicateName o.name)
  else .ok (a.size, a.push o)

def addRoutine (a : Arena) (name : String) : Except LayoutError (ObjectId × Arena) :=
  a.insert { name := name, kind := .routine none }

def addBlock (a : Arena) (routine : ObjectId) (name : String) :
    Except LayoutError (ObjectId × Arena) :=
  a.insert { name := name, kind := .block routine }

def addData (a : Arena) (name : String) (data : List UInt8) :
    Except LayoutError (ObjectId × Arena) :=
  a.insert { name := name, kind := .data, data := data }

def addDerived (a : Arena) (name : String) (parent : ObjectId) (delta : Nat) :
    Except LayoutError (ObjectId × Arena) :=
  a.insert { name := name, kind := .derived parent delta }

/-- Drops the objects from the given place on, and their names from the index. -/
def truncate (a : Arena) (size : Nat) : Arena :=
  let dropped := a.objects.toList.drop size
  ⟨a.objects.take size, a.names.filter fun entry => !dropped.any (·.name == entry.1)⟩

def modify (a : Arena) (id : ObjectId) (f : Object → Object) : Arena :=
  { a with objects := a.objects.modify id f }

def setCode (a : Arena) (id : ObjectId) (code : Array Instr) : Arena :=
  a.modify id fun o => { o with code := code }

/-- Names the block that a routine returns through. -/
def setEpilogue (a : Arena) (id epilogue : ObjectId) : Arena :=
  a.modify id fun o =>
    match o.kind with
    | .routine _ => { o with kind := .routine (some epilogue) }
    | _ => o

def declareSize (a : Arena) (id : ObjectId) (size : Option Nat) : Arena :=
  a.modify id fun o => { o with declaredSize := size }

/-- Places an object that has no place yet. -/
def setOffset (a : Arena) (id : ObjectId) (offset : Nat) : Except LayoutError Arena :=
  match a.get? id with
  | none => .ok a
  | some o =>
    match o.offset with
    | some existing => .error (.alreadyAssigned o.name existing)
    | none => .ok (a.modify id fun o => { o with offset := some offset })

/-- Follows at most `fuel` objects of a chain of derived objects. -/
def offsetWithin (a : Arena) : (fuel : Nat) → ObjectId → Except LayoutError Nat
  | 0, _ => .error (.unassigned "")
  | fuel + 1, id =>
    match a.get? id with
    | none => .error (.unassigned "")
    | some o =>
      match o.kind with
      | .derived parent delta => (a.offsetWithin fuel parent).map (· + delta)
      | _ =>
        match o.offset with
        | some offset => .ok offset
        | none => .error (.unassigned o.name)

/-- The offset of an object; of a derived one, its distance from that of its parent. No chain
of derived objects is longer than the arena. -/
def offset (a : Arena) (id : ObjectId) : Except LayoutError Nat := a.offsetWithin a.size id

def ids (a : Arena) : List ObjectId := List.range a.size

/-- Blocks of a routine in order of creation. -/
def blocksOf (a : Arena) (routine : ObjectId) : List ObjectId :=
  a.ids.filter fun id => (a.get? id).any (·.isBlockOf routine)

def contentSize (a : Arena) (id : ObjectId) : Nat := ((a.get? id).map Object.contentSize).getD 0

/-- Bytes of an object; a routine spans its blocks. -/
def sizeOf (a : Arena) (id : ObjectId) : Nat :=
  match (a.get? id).map Object.kind with
  | some (.routine _) => (a.blocksOf id).foldl (fun total b => total + a.contentSize b) 0
  | _ => a.contentSize id

end Arena

end SpuCompiler.Objects
