import SpuCompiler.Proofs.Program.ControlFlow
import SpuCompiler.Proofs.Program.Provenance

/-!
References of a placed program. The code of a call has one branch, to the object with the name of
the method; the code of a static access names the object with the name of the field, and no other.
These are a routine and large enough storage if the first request with the name has declared such
an object. Nothing else is looked at: a call of a name that was declared as a static field first
is a branch into data.
-/

namespace SpuCompiler

open Machine Metadata Bytecode Trees Objects Selection

/-! ## What code refers to -/

/-- Opcodes of calls and of accesses to named storage. -/
def Machine.Opcode.isReference : Opcode → Bool
  | .brsl | .lqr | .stqr | .ila => true
  | _ => false

theorem Machine.Opcode.refers_of_isReference {op : Opcode} (h : op.isReference = true) :
    op.refers = true := by
  unfold isReference at h
  split at h
  · rfl
  · rfl
  · rfl
  · rfl
  · cases h

/-- The code neither calls nor names storage. -/
def Unreferring (code : List Instr) : Prop := ∀ i ∈ code, i.opcode.isReference = false

/-- The instruction at an address names the storage at another one. -/
def Points (i : Instr) (source target : Nat) : Prop :=
  (i.opcode = .lqr ∨ i.opcode = .stqr) ∧ Reaches i source target ∨
    i.opcode = .ila ∧ Addresses i target

/-- The code at an address calls an object, and refers to nothing else. -/
def CallsObject (x : PlacedObject) (address : Nat) (code : List Instr) : Prop :=
  ∃ pre i post, code = pre ++ i :: post ∧ i.opcode = .brsl ∧
    Reaches i (address + 4 * pre.length) x.offset ∧ Unreferring pre ∧ Unreferring post

/-- The code at an address names the storage of an object, and refers to nothing else. -/
def AccessesObject (x : PlacedObject) (address : Nat) (code : List Instr) : Prop :=
  (∃ i ∈ code, i.opcode.isReference = true) ∧ ∀ (k : Nat) i, code[k]? = some i →
    i.opcode.isReference = true → Points i (address + 4 * k) x.offset

/-- The symbol of the method stands for a routine: it was not declared as a static field first,
and is no name of a block or a constant. -/
def NamesRoutine (rs : List Request) (p : Program) (m : Method) : Prop :=
  ¬ p.Reserves m.symbol ∧ ∀ f, firstNaming rs m.symbol ≠ some (.declareStatic f)

/-- The symbol of the field stands for storage that is large enough: what was declared first was a
static field, the field is no larger than that one or than a quadword, and the symbol is no name of
a block or a constant. -/
def NamesStorage (rs : List Request) (p : Program) (f : Field) : Prop :=
  ¬ p.Reserves f.symbol ∧ ∀ r, firstNaming rs f.symbol = some r →
    ∃ g, r = .declareStatic g ∧ f.ty.size ≤ max 16 g.ty.size

/-- A method with the symbol was declared or compiled. -/
def Requested (rs : List Request) (symbol : String) : Prop :=
  ∃ m : Method, m.symbol = symbol ∧
    (.declareRoutine m ∈ rs ∨ ∃ body resolver, .compile m body resolver ∈ rs)

/-- What the code of a node at an address refers to. -/
structure NodeRefers (image : Image) (rs : List Request) (p : Program) (n : Node) (address : Nat)
    (code : List Instr) : Prop where
  call : ∀ m, calledRoutine? n = some m → ∃ x ∈ image.objects, x.name = m.symbol ∧
    CallsObject x address code ∧
    (NamesRoutine rs p m → (∃ epilogue, x.kind = .routine epilogue) ∧ Requested rs m.symbol)
  static : ∀ f, staticField? n = some f → ∃ x ∈ image.objects, x.name = f.symbol ∧
    AccessesObject x address code ∧
    (NamesStorage rs p f → x.kind = .data ∧ f.ty.size ≤ x.data.length)
  other : calledRoutine? n = none → staticField? n = none → Lowering.wideConstant? n = none →
    Unreferring code

inductive NodesRefer (image : Image) (rs : List Request) (p : Program) :
    Nat → List Node → List Instr → Prop
  | nil (address : Nat) : NodesRefer image rs p address [] []
  | cons {address : Nat} {n : Node} {ns : List Node} {code rest : List Instr} :
      NodeRefers image rs p n address code →
      NodesRefer image rs p (address + 4 * code.length) ns rest →
      NodesRefer image rs p address (n :: ns) (code ++ rest)

structure References (image : Image) (rs : List Request) (p : Program) (c : CompiledRoutine)
    (parts : Parts) : Prop where
  objects : image.objects.filter (·.kind = .block c.routine) = parts.row
  prologue : Unreferring parts.prologue.code.toList
  epilogue : Unreferring parts.epilogue.code.toList
  blocks : List.Forall₂ (fun (b : Block) (x : PlacedObject) => NodesRefer image rs p x.offset
    (b.roots.toList.flatMap Node.postorder) x.code.toList) c.tree.blocks.toList parts.blocks

/-! ## Plain code as it is placed -/

section

variable {image : Image} {body : Array ObjectId} {epilogue : ObjectId} {address : Nat}
  {fits : Prop} {names : ObjectId → Prop} {is js : List Instr}
variable {i j : Instr} {id : ObjectId} {x : PlacedObject}

theorem PlacedAs.getElem? (h : PlacedAs image body epilogue address is js) {k : Nat}
    (hj : js[k]? = some j) : ∃ i, is[k]? = some i ∧
      image.Patches (some epilogue) (address + 4 * k) (resolveTarget body i) j := by
  induction h generalizing k with
  | nil => simp at hj
  | @cons address i j' is js hpatches _ ih =>
    cases k with
    | zero =>
      cases hj
      exact ⟨i, rfl, hpatches⟩
    | succ k =>
      obtain ⟨i', hi', hpatches'⟩ := ih hj
      refine ⟨i', hi', ?_⟩
      rwa [Nat.mul_add, Nat.add_comm (4 * k), ← Nat.add_assoc]

theorem Selection.Mentions.resolveTarget_eq (h : Mentions names i) : resolveTarget body i = i := by
  unfold resolveTarget
  split
  · rename_i b hb
    rcases h with ⟨-, hnone⟩ | ⟨-, id, hobject, -⟩
    · rw [hb] at hnone
      cases hnone
    · rw [hb] at hobject
      cases hobject
  · rfl

/-- A plain instruction is placed with its opcode, and points to the object that it names. -/
theorem Selection.Plain.placed (hi : Plain fits names i)
    (h : image.Patches (some epilogue) address (resolveTarget body i) j) :
    j.opcode = i.opcode ∧ (j.opcode.isReference = true → ∃ id x, names id ∧
      image.offset? id = some x ∧ Points j address x) := by
  have hret : i.opcode ≠ .ret := by
    intro hret
    have := hi.straight
    rw [hret] at this
    cases this
  have hopcode := opcode_of_patches hret h
  refine ⟨hopcode, fun hreference => ?_⟩
  rw [hi.mentions.resolveTarget_eq] at h
  rcases hi.mentions with ⟨hrefers, -⟩ | ⟨hpatch, id, htarget, hid⟩
  · rw [hopcode] at hreference
    rw [Opcode.refers_of_isReference hreference] at hrefers
    cases hrefers
  · rcases (Opcode.patchKind_isSome hi.straight).mp hpatch with hop | hop | hop
    · obtain ⟨x, hx, hreaches⟩ := h.relative id htarget (by rw [hop]; rfl)
      exact ⟨id, x, hid, hx, .inl ⟨.inl (hopcode.trans hop), hreaches⟩⟩
    · obtain ⟨x, hx, hreaches⟩ := h.relative id htarget (by rw [hop]; rfl)
      exact ⟨id, x, hid, hx, .inl ⟨.inr (hopcode.trans hop), hreaches⟩⟩
    · obtain ⟨x, hx, haddresses⟩ := h.absolute id htarget hop
      exact ⟨id, x, hid, hx, .inr ⟨hopcode.trans hop, haddresses⟩⟩

theorem PlacedAs.unreferring (h : PlacedAs image body epilogue address is js)
    (hplain : ∀ i ∈ is, Plain fits names i) (hnames : ∀ id, ¬ names id) : Unreferring js := by
  intro j hj
  obtain ⟨k, hk⟩ := List.mem_iff_getElem?.mp hj
  obtain ⟨i, hi, hpatches⟩ := h.getElem? hk
  obtain ⟨-, hreference⟩ := (hplain i (List.mem_of_getElem? hi)).placed hpatches
  by_contra hj'
  obtain ⟨id, -, hid, -⟩ := hreference (by simpa using hj')
  exact hnames id hid

theorem PlacedAs.accesses (h : PlacedAs image body epilogue address is js)
    (haccesses : Accesses fits id is) (hx : image.objects[id]? = some x) :
    AccessesObject x address js := by
  refine ⟨?_, ?_⟩
  · obtain ⟨i, hi, htarget⟩ := haccesses.named
    obtain ⟨k, hk⟩ := List.mem_iff_getElem?.mp hi
    have hlt : k < js.length := by
      rw [h.length_eq]
      exact (List.getElem?_eq_some_iff.mp hk).1
    refine ⟨js[k], List.getElem_mem hlt, ?_⟩
    obtain ⟨i', hi', hpatches⟩ := h.getElem? (List.getElem?_eq_getElem hlt)
    obtain rfl : i = i' := Option.some.inj (hk.symm.trans hi')
    have hplain := haccesses.plain i hi
    rw [(hplain.placed hpatches).1]
    rcases hplain.mentions with ⟨-, hnone⟩ | ⟨hpatch, -⟩
    · rw [htarget] at hnone
      cases hnone
    · rcases (Opcode.patchKind_isSome hplain.straight).mp hpatch with hop | hop | hop <;>
        rw [hop] <;> rfl
  · intro k j hj hreference
    obtain ⟨i, hi, hpatches⟩ := h.getElem? hj
    obtain ⟨-, hplaced⟩ := (haccesses.plain i (List.mem_of_getElem? hi)).placed hpatches
    obtain ⟨_, y, rfl, hy, hpoints⟩ := hplaced hreference
    obtain ⟨x', hx', rfl⟩ := exists_of_offset? hy
    obtain rfl : x = x' := Option.some.inj (hx.symm.trans hx')
    exact hpoints

variable {pre post : List Instr} (hpre : ∀ i ∈ pre, Plain fits NoObject i)

include hpre

theorem PlacedAs.calls (hpost : ∀ i ∈ post, Plain fits NoObject i)
    (h : PlacedAs image body epilogue address
      (pre ++ .withTarget .brsl (some .lr) (.object id) :: post) js)
    (hx : image.objects[id]? = some x) : CallsObject x address js := by
  obtain ⟨js₁, js₂, rfl, hjs₁, hjs₂⟩ := h.split
  cases hjs₂ with
  | @cons _ _ j _ js₃ hj hjs₃ =>
    obtain ⟨hop, offset, hoffset, hreaches⟩ := call_of_patches hj
    obtain ⟨x', hx', rfl⟩ := exists_of_offset? hoffset
    obtain rfl : x = x' := Option.some.inj (hx.symm.trans hx')
    have hnone : ∀ id, ¬ NoObject id := fun _ h => h
    exact ⟨js₁, j, js₃, rfl, hop, hreaches, hjs₁.unreferring hpre hnone,
      hjs₃.unreferring hpost hnone⟩

/-- Plain code and a last instruction that is not a reference when it is placed. -/
theorem PlacedAs.unreferring_last (h : PlacedAs image body epilogue address (pre ++ [i]) js)
    (hlast : ∀ {source j}, image.Patches (some epilogue) source (resolveTarget body i) j →
      j.opcode.isReference = false) : Unreferring js := by
  obtain ⟨js₁, j, rfl, hjs₁, hj⟩ := h.split_last
  intro k hk
  rcases List.mem_append.mp hk with hk | hk
  · exact hjs₁.unreferring hpre (fun _ => id) k hk
  · obtain rfl := List.mem_singleton.mp hk
    exact hlast hj

end

/-! ## Nodes -/

section

variable {o : Options} {rs : List Request} {p : Program} {image : Image} {body : Array ObjectId}
  {epilogue : ObjectId} {address : Nat} {fits : Prop} {code js : List Instr}
variable {id : ObjectId} {x : Object} {n : Node}

/-- A routine of the image, if its name stands for one. -/
theorem Declared.routine (h : Declared rs p) {m : Method} (hm : NamesRoutine rs p m)
    (hx : p.arena.get? id = some x) (hname : x.name = m.symbol) :
    (∃ e, x.kind = .routine e) ∧ Requested rs m.symbol := by
  rcases h.objects id x hx with hreserves | ⟨r, hr, hmakes⟩
  · exact absurd (hname ▸ hreserves) hm.1
  · have hmem := List.mem_of_find?_eq_some hr
    have hsymbol : r.symbol = m.symbol := by
      have := List.find?_some hr
      rw [of_decide_eq_true this, hname]
    rw [hname] at hr
    cases r with
    -- the one request that makes something else under the name
    | declareStatic f => exact absurd hr (hm.2 f)
    | declareRoutine m' => exact ⟨hmakes, m', hsymbol, .inl hmem⟩
    | compile m' body resolver => exact ⟨hmakes, m', hsymbol, .inr ⟨body, resolver, hmem⟩⟩

/-- The storage of a static field holds its type, and at least a quadword. -/
theorem Program.le_staticSize (f : Field) : max 16 f.ty.size ≤ staticSize f :=
  Binary.le_alignUp _ (by decide)

/-- Storage of the image, if its name stands for it. -/
theorem Declared.storage (h : Declared rs p) {f : Field} (hf : NamesStorage rs p f)
    (hx : p.arena.get? id = some x) (hname : x.name = f.symbol) :
    x.kind = .data ∧ f.ty.size ≤ x.data.length := by
  rcases h.objects id x hx with hreserves | ⟨r, hr, hmakes⟩
  · exact absurd (hname ▸ hreserves) hf.1
  · rw [hname] at hr
    obtain ⟨g, rfl, hsize⟩ := hf.2 r hr
    obtain ⟨hkind, hdata⟩ := hmakes
    refine ⟨hkind, ?_⟩
    rw [hdata, List.length_replicate]
    exact hsize.trans (Program.le_staticSize g)

/-- A node that does not pass on neither calls nor accesses a static field. -/
theorem NodeRefers.of_not_passes (hpasses : ¬ n.Passes) (hjs : Unreferring js) :
    NodeRefers image rs p n address js := by
  refine ⟨fun m hm => ?_, fun f hf => ?_, fun _ _ _ => hjs⟩
  · simp [calledRoutine?_eq_none hpasses] at hm
  · exact absurd (passes_of_static (isStaticAccess_of_staticField? hf)) hpasses

theorem NodeRefers.of_code (hp : Sound o p) (hfinish : p.finish = .ok image) (hd : Declared rs p)
    (hn : NodeCode fits p.arena n code) (hjs : PlacedAs image body epilogue address code js) :
    NodeRefers image rs p n address js := by
  cases hn with
  | straight hjump hret hcall hstatic hplain =>
    refine ⟨fun m hm => ?_, fun f hf => ?_, fun _ _ hwide => ?_⟩
    · simp [hcall] at hm
    · simp [hstatic] at hf
    · exact hjs.unreferring hplain fun id hid => by simp [NamesConstant, hwide] at hid
  | @access _ f id y hstatic hy hname haccesses =>
    refine ⟨fun m hm => ?_, fun f' hf' => ?_, fun _ hnone => ?_⟩
    · simp [calledRoutine?_of_static (isStaticAccess_of_staticField? hstatic)] at hm
    · obtain rfl : f = f' := Option.some.inj (hstatic.symm.trans hf')
      obtain ⟨x, hx, -, hxname, hkind, hdata, -⟩ := (hp.arranges hfinish).placed id y hy
      refine ⟨x, List.mem_of_getElem? hx, hxname.trans hname, hjs.accesses haccesses hx, ?_⟩
      rw [hkind, hdata]
      exact fun hf => hd.storage hf hy hname
    · simp [hstatic] at hnone
  | @call pre post m id y hcall hy hname hpre hpost =>
    refine ⟨fun m' hm' => ?_, fun f hf => ?_, fun hnone => ?_⟩
    · obtain rfl : m = m' := Option.some.inj (hcall.symm.trans hm')
      obtain ⟨x, hx, -, hxname, hkind, -⟩ := (hp.arranges hfinish).placed id y hy
      refine ⟨x, List.mem_of_getElem? hx, hxname.trans hname, hjs.calls hpre hpost hx, ?_⟩
      rw [hkind]
      exact fun hm => hd.routine hm hy hname
    · rw [calledRoutine?_of_static (isStaticAccess_of_staticField? hf)] at hcall
      cases hcall
    · simp [hcall] at hnone
  | @jump pre op condition b hjump hb hpre hop hcondition =>
    refine .of_not_passes (fun h => Bool.false_ne_true (h.1.symm.trans hjump)) ?_
    refine hjs.unreferring_last hpre fun hj => ?_
    rw [(jump_of_patches hop hj).1]
    rcases hop with rfl | rfl | rfl <;> rfl
  | ret hret hpre =>
    refine .of_not_passes (fun h => h.2 hret) (hjs.unreferring_last hpre fun hj => ?_)
    rw [(ret_of_patches hj).1]
    rfl

theorem NodesRefer.of_code (hp : Sound o p) (hfinish : p.finish = .ok image) (hd : Declared rs p)
    {ns : List Node} (hns : NodesCode fits p.arena ns code)
    (hjs : PlacedAs image body epilogue address code js) :
    NodesRefer image rs p address ns js := by
  induction hns generalizing address js with
  | nil =>
    cases hjs
    exact .nil address
  | cons hn _ ih =>
    obtain ⟨js₁, js₂, rfl, hjs₁, hjs₂⟩ := hjs.split
    exact .cons (.of_code hp hfinish hd hn hjs₁) (ih hjs₂)

end

/-! ## Routines -/

theorem Unreferring.of_patches {image : Image} {epilogue : ObjectId} {address : Nat}
    {is js : List Instr} (hlength : js.length = is.length)
    (h : ∀ (k : Nat) i j, is[k]? = some i → js[k]? = some j →
      image.Patches (some epilogue) (address + 4 * k) i j)
    (his : ∀ i ∈ is, i.opcode ≠ .ret ∧ i.opcode.isReference = false) : Unreferring js := by
  intro j hj
  obtain ⟨k, hk, rfl⟩ := List.mem_iff_getElem.mp hj
  have hk' : k < is.length := hlength ▸ hk
  obtain ⟨hret, hreference⟩ := his _ (List.getElem_mem hk')
  rw [(h k _ _ (List.getElem?_eq_getElem hk') (List.getElem?_eq_getElem hk)).fields hret]
  exact hreference

theorem Selection.Plain.unreferring {i : Instr} {fits : Prop} (h : Plain fits NoObject i) :
    i.opcode ≠ .ret ∧ i.opcode.isReference = false := by
  rcases h.mentions with ⟨hrefers, -⟩ | ⟨-, id, -, hid⟩
  · refine ⟨fun hret => ?_, ?_⟩
    · rw [hret] at hrefers
      cases hrefers
    · by_contra hreference
      rw [Opcode.refers_of_isReference (by simpa using hreference)] at hrefers
      cases hrefers
  · exact hid.elim

namespace Sound

variable {o : Options} {rs : List Request} {p : Program} {image : Image} {c : CompiledRoutine}
  (h : Sound o p) (hfinish : p.finish = .ok image) (hc : c ∈ p.routines)

include h hfinish hc

theorem references (hd : Declared rs p) : ∃ parts, References image rs p c parts := by
  have hcode : RoutineCode False p.arena c.tree c.selected :=
    (h.installed c hc).lowered False nofun nofun
  obtain ⟨parts, hobjects, hprologue, hblocks, hparts⟩ := h.exists_parts hfinish hc
  obtain ⟨-, hlengthx, hpatchesx⟩ := h.patches hfinish hc (by simp [SelectedRoutine.allBlocks])
    hprologue
  obtain ⟨-, hlengthy, hpatchesy⟩ := h.patches hfinish hc (by simp [SelectedRoutine.allBlocks])
    hparts.epilogue
  refine ⟨parts, hobjects, ?_, ?_, ?_⟩
  · exact .of_patches hlengthx hpatchesx fun i hi =>
      (hcode.prologue i (Array.mem_toList_iff.mp hi)).unreferring
  · obtain ⟨pre, hpre, hplain⟩ := hcode.epilogue
    refine .of_patches hlengthy hpatchesy fun i hi => ?_
    rw [hpre] at hi
    rcases List.mem_append.mp hi with hi | hi
    · exact (hplain i hi).unreferring
    · obtain rfl := List.mem_singleton.mp hi
      exact ⟨by decide, rfl⟩
  · refine List.forall₂_iff_get.mpr ⟨hcode.blocks.length_eq.trans hblocks.length_eq, ?_⟩
    intro k hk hk'
    have hk'' : k < c.selected.blocks.length := hblocks.length_eq ▸ hk'
    obtain ⟨code, hcodes, hnodes⟩ := (List.forall₂_iff_get.mp hcode.blocks).2 k hk hk''
    exact .of_code h hfinish hd hnodes (h.placedAs hfinish hc (List.getElem_mem hk'')
      ((List.forall₂_iff_get.mp hblocks).2 k hk'' hk') hcodes)

end Sound

/-- Whatever is asked of a program, once it is placed the code of each call in it has one branch, to
the object with the name of the method, and the code of each static access names the object with
the name of the field. The one is a routine that was declared or compiled, and the other holds all
bytes of the field, if the names stand for such objects; prologues, epilogues and all other code
but that of wide constants refer to nothing. -/
theorem finish_references {o : Options} {start : Program} (hnew : Program.new o = .ok start)
    (rs : List Request) {image : Image} (hfinish : (start.serve rs).2.finish = .ok image)
    {c : CompiledRoutine} (hc : c ∈ (start.serve rs).2.routines) :
    ∃ parts, References image rs (start.serve rs).2 c parts := by
  obtain ⟨hsound, hdeclared⟩ := serve_declared hnew rs
  exact hsound.references hfinish hc hdeclared

/-- A method and a static field of one class, under one name. -/
def tickMethod : Method := { name := "Tick", declaring := some (.reference (.sequential "Clock" [])) }

def tickField : Field := .static "Clock" "Tick" .i4

def timeField : Field := .static "Clock" "Time" .i4

/-- Calls the method and reads another static field. -/
def clockBody : Body :=
  { code := [0x28, 0x01, 0x00, 0x00, 0x06, 0x7E, 0x01, 0x00, 0x00, 0x04, 0x26, 0x2A] }

def clockTokens : Resolver := (TokenTable.of [.method tickMethod, .field timeField]).resolver

/-- The field is declared, then something else, then the body is compiled. -/
def clockRequests (r : Request) : List Request :=
  [.declareStatic timeField, r, .compile entryMethod clockBody clockTokens]

def tickCompiled : Request := .compile tickMethod returnOnly clockTokens

/-- With the method compiled, its name stands for a routine, and that of the field for storage. -/
theorem clock_references : ∃ image c parts,
    (({} : Program).serve (clockRequests tickCompiled)).2.finish = .ok image ∧
      c.selected.name = "Main" ∧
      References image (clockRequests tickCompiled)
        (({} : Program).serve (clockRequests tickCompiled)).2 c parts ∧
      NamesRoutine (clockRequests tickCompiled)
        (({} : Program).serve (clockRequests tickCompiled)).2 tickMethod ∧
      NamesStorage (clockRequests tickCompiled)
        (({} : Program).serve (clockRequests tickCompiled)).2 timeField := by
  have hplaced : (({} : Program).serve (clockRequests tickCompiled)).2.finish.isOk = true := by
    decide +kernel
  have hmain : ∃ c ∈ (({} : Program).serve (clockRequests tickCompiled)).2.routines,
      c.selected.name = "Main" := by decide +kernel
  obtain ⟨c, hc, hname⟩ := hmain
  obtain ⟨image, himage⟩ := exists_of_isOk hplaced
  obtain ⟨parts, hreferences⟩ :=
    finish_references (o := {}) rfl (clockRequests tickCompiled) himage hc
  refine ⟨image, c, parts, himage, hname, hreferences, ⟨by decide +kernel, ?_⟩, by decide +kernel, ?_⟩
  · have hfirst : firstNaming (clockRequests tickCompiled) tickMethod.symbol = some tickCompiled :=
      rfl
    rw [hfirst]
    exact nofun
  · have hfirst : firstNaming (clockRequests tickCompiled) timeField.symbol =
        some (.declareStatic timeField) := rfl
    rw [hfirst]
    rintro _ ⟨⟩
    exact ⟨timeField, rfl, by decide⟩

/-- With a static field under the name of the method, the call is compiled all the same: it is a
branch to the storage of the field. -/
theorem clock_calls_data : ∃ image,
    (({} : Program).serve (clockRequests (.declareStatic tickField))).2.finish = .ok image ∧
      ∃ b ∈ image.objects, ∃ x ∈ image.objects, x.name = tickMethod.symbol ∧ x.kind = .data ∧
        ∃ i ∈ b.code[0]?, i.opcode = .brsl ∧ (b.offset : Int) + 4 * i.constant = x.offset := by
  have hrun : ∃ image ∈
      (({} : Program).serve (clockRequests (.declareStatic tickField))).2.finish.toOption,
      ∃ b ∈ image.objects, ∃ x ∈ image.objects, x.name = tickMethod.symbol ∧ x.kind = .data ∧
        ∃ i ∈ b.code[0]?, i.opcode = .brsl ∧ (b.offset : Int) + 4 * i.constant = x.offset := by
    decide +kernel
  obtain ⟨image, himage, hcall⟩ := hrun
  exact ⟨image, toOption_eq_some.mp himage, hcall⟩

end SpuCompiler
