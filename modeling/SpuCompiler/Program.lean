import SpuCompiler.Objects.Layout
import SpuCompiler.Selection.Routine
import SpuCompiler.Trees.Builder

/-!
Programs. A program grows by declared routines and static fields and by compiled methods, and is
placed once as a whole. What a method calls or accesses is declared before the method is
compiled; the order of declaration is the order in memory.
-/

namespace SpuCompiler

open Metadata Trees Objects Selection

structure CompiledRoutine where
  routine : ObjectId
  tree : Routine
  selected : SelectedRoutine

inductive CompileFault where
  | build (error : BuildError)
  | selection (errors : SelectionErrors)
  | layout (error : LayoutError)
  | alreadyCompiled

structure CompileError where
  routine : String
  fault : CompileFault

namespace CompileError

def message (e : CompileError) : String :=
  match e.fault with
  | .build err => s!"{e.routine}: {err.message}"
  | .selection errs => errs.message
  | .layout err => s!"{e.routine}: {err.message}"
  | .alreadyCompiled => s!"{e.routine} was already compiled"

end CompileError

structure Program where
  options : Options := {}
  arena : Arena := {}
  routines : List CompiledRoutine := []

namespace Program

/-- A program without objects. -/
def new (o : Options) : Except OptionsError Program := do
  o.validate
  return { options := o }

/-- The compiled routine with a name. -/
def routine? (p : Program) (name : String) : Option CompiledRoutine :=
  p.routines.find? (·.selected.name = name)

/-- The object with the symbol of a method; a new routine if there is none. -/
def declareRoutine (p : Program) (m : Method) : Except LayoutError (ObjectId × Program) :=
  match p.arena.find? m.symbol with
  | some id => .ok (id, p)
  | none => do
    let (id, arena) ← p.arena.addRoutine m.symbol
    return (id, { p with arena := arena })

/-- Bytes of the storage of a static field: whole quadwords, at least one. -/
def staticSize (f : Field) : Nat := Binary.alignUp (max 16 f.ty.size) 16

/-- The object with the symbol of a static field; new zeroed storage if there is none. -/
def declareStatic (p : Program) (f : Field) : Except LayoutError (ObjectId × Program) :=
  match p.arena.find? f.symbol with
  | some id => .ok (id, p)
  | none => do
    let (id, arena) ← p.arena.addData f.symbol (List.replicate (staticSize f) 0)
    return (id, { p with arena := arena })

/-- Compiles the method of a declared routine. -/
def compileDeclared (p : Program) (id : ObjectId) (m : Method) (body : Body)
    (resolver : Resolver) : Except CompileFault CompiledRoutine × Program :=
  if p.routines.any (·.routine = id) then (.error .alreadyCompiled, p)
  else
    match build m body resolver with
    | .error e => (.error (.build e), p)
    | .ok tree =>
      match selectInto p.options p.arena tree id with
      | (.error e, arena) => (.error (.selection e), { p with arena := arena })
      | (.ok selected, arena) =>
        let compiled : CompiledRoutine :=
          ⟨id, { tree with vars := selected.frame.vars }, selected⟩
        (.ok compiled,
          { p with arena := selected.install arena, routines := p.routines ++ [compiled] })

/-- Compiles a method. Where that fails, the routine is declared all the same. -/
def compile (p : Program) (m : Method) (body : Body) (resolver : Resolver) :
    Except CompileError CompiledRoutine × Program :=
  match p.declareRoutine m with
  | .error e => (.error ⟨m.symbol, .layout e⟩, p)
  | .ok (id, p) =>
    let (result, p) := p.compileDeclared id m body resolver
    (result.mapError (⟨m.symbol, ·⟩), p)

/-- What a failing placement is named after. -/
def culprit : LayoutError → String
  | .emptyRoutine name => name
  | _ => "program"

/-- Places the program from its base address on. -/
def finish (p : Program) : Except CompileError Image :=
  match (p.arena.layout p.options.baseAddress p.options.localStoreSize).1 with
  | .ok image => .ok image
  | .error e => .error ⟨culprit e, .layout e⟩

end Program

end SpuCompiler
