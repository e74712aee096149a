import SpuCompiler.Proofs.Program.Runs

/-!
Requests to a program, one after the other. A compilation that fails has added blocks and constants
to the arena before its faults are known, and drops them again; what remains of it is the
declaration of its routine, so whatever is asked later is answered as if nothing else had been
tried.
-/

namespace SpuCompiler

open Metadata Bytecode Trees Objects Selection

inductive Request where
  | declareRoutine (m : Method)
  | declareStatic (f : Field)
  | compile (m : Method) (body : Body) (resolver : Resolver)

inductive Answer where
  | declared (result : Except LayoutError ObjectId)
  | compiled (result : Except CompileError CompiledRoutine)

namespace Program

/-- The answer to a declaration; one that fails leaves the program as it was. -/
def declared (p : Program) : Except LayoutError (ObjectId × Program) → Answer × Program
  | .ok (id, q) => (.declared (.ok id), q)
  | .error e => (.declared (.error e), p)

def answer (p : Program) : Request → Answer × Program
  | .declareRoutine m => p.declared (p.declareRoutine m)
  | .declareStatic f => p.declared (p.declareStatic f)
  | .compile m body resolver =>
    let (result, q) := p.compile m body resolver
    (.compiled result, q)

def serve (p : Program) : List Request → List Answer × Program
  | [] => ([], p)
  | r :: rs =>
    let (a, q) := p.answer r
    let (as, f) := q.serve rs
    (a :: as, f)

theorem serve_cons (p : Program) (r : Request) (rs : List Request) :
    p.serve (r :: rs) = ((p.answer r).1 :: ((p.answer r).2.serve rs).1, ((p.answer r).2.serve rs).2) :=
  rfl

end Program

/-- A compilation that fails leaves no trace. It fails in the trees, in the selection, or because
the routine was compiled before; the objects, the index of their names and the compiled routines
are then those of the declaration alone, and any later requests have the same answers and the same
result as after that declaration. -/
theorem compile_leaves_no_trace {o : Options} {p : Program} (hp : p.Reached o) {m : Method}
    {body : Body} {resolver : Resolver} {e : CompileError}
    (h : (p.compile m body resolver).1 = .error e) :
    (∀ l, e.fault ≠ .layout l) ∧ ∃ id q, p.declareRoutine m = .ok (id, q) ∧
      (p.compile m body resolver).2 = q ∧ q.routines = p.routines ∧ q.arena.Indexed ∧
      ∀ rs, p.serve (.compile m body resolver :: rs) =
          (.compiled (.error e) :: (q.serve rs).1, (q.serve rs).2) ∧
        p.serve (.declareRoutine m :: rs) =
          (.declared (.ok id) :: (q.serve rs).1, (q.serve rs).2) := by
  rcases hrun : p.compile m body resolver with ⟨result, q⟩
  rw [hrun] at h
  obtain rfl : result = .error e := h
  obtain ⟨⟨id, hdeclare⟩, -, hfault⟩ := Program.compile_error hrun
  obtain ⟨hsound, -, hroutines⟩ := hp.sound.declareRoutine hdeclare
  refine ⟨hfault, id, q, hdeclare, rfl, hroutines, hsound.built.indexed, fun rs => ⟨?_, ?_⟩⟩
  · rw [Program.serve_cons, Program.answer, hrun]
  · rw [Program.serve_cons, Program.answer, hdeclare, Program.declared]

/-- Divides two wide constants, which no code does. -/
def divideWide : Body :=
  { code := [0x21, 1, 0, 0, 0, 0, 0, 0, 0, 0x21, 2, 0, 0, 0, 0, 0, 0, 0, 0x5B, 0x26, 0x2A] }

def returnOnly : Body := { code := [0x2A] }

def emptyTokens : Resolver := ({} : TokenTable).resolver

def entryMethod : Method := { name := "Main" }

/-- After the division was refused, the routine can be compiled with another body. The blocks and
the constants of the first attempt are gone, so the new ones take their places. -/
theorem divideWide_leaves_no_trace : ∃ e, (({} : Program).compile entryMethod divideWide
      emptyTokens).1 = .error e ∧
    (∃ id q, ({} : Program).declareRoutine entryMethod = .ok (id, q) ∧
      ∀ rs, ({} : Program).serve (.compile entryMethod divideWide emptyTokens :: rs) =
        (.compiled (.error e) :: (q.serve rs).1, (q.serve rs).2)) ∧
    (({} : Program).compile entryMethod divideWide emptyTokens).2.arena.size = 1 ∧
    (({} : Program).serve [.compile entryMethod divideWide emptyTokens,
      .compile entryMethod returnOnly emptyTokens]).2.finish.isOk = true := by
  have hfails : (({} : Program).compile entryMethod divideWide emptyTokens).1.isOk = false := by
    decide +kernel
  obtain ⟨e, hc⟩ := exists_of_not_isOk hfails
  have hreached : ({} : Program).Reached {} := .new rfl
  obtain ⟨-, id, q, hdeclare, -, -, -, hserve⟩ := compile_leaves_no_trace hreached hc
  exact ⟨e, hc, ⟨id, q, hdeclare, fun rs => (hserve rs).1⟩, by decide +kernel, by decide +kernel⟩

end SpuCompiler
