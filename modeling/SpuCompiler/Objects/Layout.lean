import SpuCompiler.Binary.Align
import SpuCompiler.Objects.Image

/-!
Placement. Routines and data get increasing offsets in order of creation, the blocks of a
routine follow each other, returns become branches to the epilogue, and instructions that name
an object get the distance to it or its address. What a failing placement has done to the arena
before it failed stays done.
-/

namespace SpuCompiler.Objects

open Machine

/-- Steps that change the arena, also where they fail. -/
abbrev LayoutM := ExceptT LayoutError (StateM Arena)

/-- An instruction whose immediate depends on where an object is. -/
structure Patch where
  block : ObjectId
  index : Nat
  /-- The offset of the instruction. -/
  source : Nat
  target : ObjectId
  kind : PatchKind

/-- A return becomes a branch to the epilogue. -/
def resolveReturn (name : String) (epilogue : Option ObjectId) (i : Instr) :
    Except LayoutError Instr :=
  if i.opcode = .ret then
    match epilogue with
    | some e => .ok (.withTarget .br none (.object e))
    | none => .error (.missingEpilogue name)
  else .ok i

/-- The object whose place an instruction needs. -/
def patchTarget? (name : String) (index : Nat) (i : Instr) :
    Except LayoutError (Option (ObjectId × PatchKind)) :=
  match i.target with
  | none => .ok none
  | some (.object t) => .ok (i.opcode.patchKind.map fun k => (t, k))
  | some (.block _) => .error (.unresolvedTarget name index)

/-- Resolves the returns of a block placed at `start` and gives its patches; `index` numbers the
instruction at the front. The code up to a fault is resolved, the rest is as it was. -/
def scanCode (block : Object) (id : ObjectId) (start : Nat) (epilogue : Option ObjectId)
    (index : Nat) : List Instr → List Instr × Except LayoutError (List Patch)
  | [] => ([], .ok [])
  | i :: is =>
    match resolveReturn block.name epilogue i with
    | .error e => (i :: is, .error e)
    | .ok i =>
      match patchTarget? block.name index i with
      | .error e => (i :: is, .error e)
      | .ok target =>
        let (is, patches) := scanCode block id start epilogue (index + 1) is
        let here := target.toList.map fun (t, k) => ⟨id, index, start + 4 * index, t, k⟩
        (i :: is, patches.map (here ++ ·))

/-- Compares the size of an object with the promised one. -/
def checkSize (o : Object) (actual : Nat) : Except LayoutError Unit :=
  match o.declaredSize with
  | some declared =>
    if declared = actual then .ok () else .error (.sizeMismatch o.name declared actual)
  | none => .ok ()

namespace Layout

def setOffset (id : ObjectId) (offset : Nat) : LayoutM Unit := do
  set (← (← get).setOffset id offset)

/-- Places a block and resolves its returns. -/
def placeBlock (id : ObjectId) (offset : Nat) (epilogue : Option ObjectId) :
    LayoutM (List Patch) := do
  setOffset id offset
  let a ← get
  match a.get? id with
  | none => return []
  | some o =>
    checkSize o o.contentSize
    let (code, patches) := scanCode o id offset epilogue 0 o.code.toList
    set (a.setCode id code.toArray)
    patches

/-- Places blocks one after the other, from `cursor` on, and gives the end of the last one. -/
def placeBlocks (epilogue : Option ObjectId) (cursor : Nat) (patches : Array Patch) :
    List ObjectId → LayoutM (Nat × Array Patch)
  | [] => return (cursor, patches)
  | id :: ids => do
    let more ← placeBlock id cursor epilogue
    let size := (← get).contentSize id
    placeBlocks epilogue (cursor + size) (patches ++ more.toArray) ids

/-- Places a routine with its blocks, or data, at `cursor`, and gives its end. -/
def placeObject (id : ObjectId) (cursor : Nat) (patches : Array Patch) :
    LayoutM (Nat × Array Patch) := do
  setOffset id cursor
  let a ← get
  match a.get? id with
  | none => return (cursor, patches)
  | some o =>
    match o.kind with
    | .routine epilogue =>
      let blocks := a.blocksOf id
      if blocks.isEmpty then throw (.emptyRoutine o.name)
      let (stop, patches) ← placeBlocks epilogue cursor patches blocks
      checkSize o (stop - cursor)
      return (stop, patches)
    | _ =>
      checkSize o o.contentSize
      return (cursor + o.contentSize, patches)

/-- Places objects at multiples of a quadword above `base`. -/
def placeObjects (base cursor : Nat) (patches : Array Patch) :
    List ObjectId → LayoutM (Nat × Array Patch)
  | [] => return (cursor, patches)
  | id :: ids => do
    let (cursor, patches) ←
      placeObject id (base + Binary.alignUp (cursor - base) 16) patches
    placeObjects base cursor patches ids

/-- Every object has to lie at a multiple of its alignment. -/
def checkAlignment (a : Arena) : List ObjectId → Except LayoutError Unit
  | [] => .ok ()
  | id :: ids => do
    let offset ← a.offset id
    match a.get? id with
    | none => checkAlignment a ids
    | some o =>
      if offset % o.alignment = 0 then checkAlignment a ids
      else .error (.misaligned o.name offset o.alignment)

/-- The immediate of a patched instruction. -/
def patchValue (a : Arena) (p : Patch) : Except LayoutError Int := do
  let target ← a.offset p.target
  let name (id : ObjectId) : String := ((a.get? id).map Object.name).getD ""
  match p.kind with
  | .relativeWord =>
    let distance : Int := target - p.source
    if distance % 4 ≠ 0 then throw (.misaligned (name p.target) target 4)
    let words := distance / 4
    if -0x8000 ≤ words ∧ words < 0x8000 then return words
    else throw (.displacementOutOfRange (name p.block) p.index words)
  | .absoluteByte =>
    if target < 0x40000 then return target
    else throw (.displacementOutOfRange (name p.block) p.index target)

def applyPatch (p : Patch) : LayoutM Unit := do
  let a ← get
  let value ← patchValue a p
  set (a.modify p.block fun o =>
    { o with code := o.code.modify p.index fun i => { i with constant := value } })

def applyPatches : List Patch → LayoutM Unit
  | [] => return ()
  | p :: ps => do
    applyPatch p
    applyPatches ps

/-- The placed objects of an arena. -/
def placedObjects (a : Arena) : List PlacedObject :=
  a.ids.filterMap fun id =>
    match a.offset id, a.get? id with
    | .ok offset, some o => some ⟨id, o.name, o.kind, offset, o.code, o.data⟩
    | _, _ => none

def run (base limit : Nat) : LayoutM Image := do
  let a ← get
  let topLevel := a.ids.filter fun id => (a.get? id).any Object.isTopLevel
  let (cursor, patches) ← placeObjects base base #[] topLevel
  let a ← get
  checkAlignment a a.ids
  if limit < cursor then throw (.imageTooLarge cursor limit)
  applyPatches patches.toList
  return ⟨base, cursor - base, placedObjects (← get)⟩

end Layout

/-- Places all objects from `base` on, below `limit`. -/
def Arena.layout (a : Arena) (base limit : Nat) : Except LayoutError Image × Arena :=
  (Layout.run base limit).run.run a

end SpuCompiler.Objects
