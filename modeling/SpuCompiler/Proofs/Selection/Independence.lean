import SpuCompiler.Proofs.Selection.Renaming
import SpuCompiler.Proofs.Selection.RoutineCode

/-!
Selection of one routine in two arenas. What else there is in an arena, and when it was made, does
not matter: the runs go side by side, one object for one object, and the code is the same with names
in the place of numbers.
-/

namespace SpuCompiler.Selection

open Machine Metadata Bytecode Trees Objects

variable {names names' : ObjectId → Option String}
variable {p q p' : Progress} {L : Lowering} {bs : List Block} {codes : List (Array Instr)}

/-! ## Lowering -/

def constantObject (name : String) (bits : BitVec 64) : Object :=
  { name := name, kind := .data, data := Binary.bigEndian 8 bits.toNat ++ List.replicate 8 0 }

/-- Two runs of lowering, each at the same point, with the arenas that they started from. -/
structure Twins (names names' : ObjectId → Option String) (a a' : Arena) (p p' : Progress) :
    Prop where
  stream : SameStream names names' p.stream p'.stream
  constants : p.constants = p'.constants
  indexed : p.arena.Indexed
  indexed' : p'.arena.Indexed
  added : ∃ xs : List Object, (∀ x ∈ xs, ∃ name bits, x = constantObject name bits) ∧
    p.arena.objects.toList = a.objects.toList ++ xs ∧
    p'.arena.objects.toList = a'.objects.toList ++ xs

/-- A new object for a constant is the same one in both arenas. -/
theorem Twins.constant {a a' b b' : Arena} {name : String} {bits : BitVec 64}
    (ht : Twins names names' a a' p p')
    (hb : p.arena.insert (constantObject name bits) = .ok (p.arena.size, b))
    (hb' : p'.arena.insert (constantObject name bits) = .ok (p'.arena.size, b')) :
    Twins names names' a a' { p with constants := p.constants + 1, arena := b }
      { p' with constants := p'.constants + 1, arena := b' } := by
  obtain ⟨xs, hxs, hp, hp'⟩ := ht.added
  have hindexed := ht.indexed.insert hb
  have hindexed' := ht.indexed'.insert hb'
  obtain ⟨-, rfl⟩ := Arena.insert_ok hb
  obtain ⟨-, rfl⟩ := Arena.insert_ok hb'
  refine ⟨ht.stream, congrArg (· + 1) ht.constants, hindexed, hindexed',
    xs ++ [constantObject name bits], ?_, by simp [hp], by simp [hp']⟩
  intro y hy
  rcases List.mem_append.mp hy with hy | hy
  · exact hxs y hy
  · exact ⟨name, bits, List.mem_singleton.mp hy⟩

/-- A run without errors, with the names of the objects that there are in the end. -/
structure Clean {α : Type} (names : ObjectId → Option String) (m : LowerM α) (p : Progress) (x : α)
    (q : Progress) : Prop where
  run : m.run p = (x, q)
  errors : q.errors.size ≤ p.errors.size
  names : q.arena.NamedBy names

theorem Clean.bind {α β : Type} {m : LowerM α} {f : α → LowerM β} {y : β}
    (h : Clean names (m >>= f) p y q) (hm : Growing m) (hf : ∀ x, Growing (f x)) :
    ∃ x r, Clean names m p x r ∧ Clean names (f x) r y q := by
  obtain ⟨x, r, hrun, hrun', herr, herr'⟩ := hm.run_bind hf h.run h.errors
  have hnames := h.names.before ((hf x).grows hrun').arena
  exact ⟨x, r, ⟨hrun, herr, hnames⟩, ⟨hrun', herr', h.names⟩⟩

/-- Runs without errors stay at the same point and have the same result. -/
structure Parallel {α : Type} (names names' : ObjectId → Option String) (a a' : Arena)
    (m : LowerM α) : Prop where
  growing : Growing m
  twins : ∀ {p p' q q' : Progress} {x x' : α}, Clean names m p x q → Clean names' m p' x' q' →
    Twins names names' a a' p p' → x = x' ∧ Twins names names' a a' q q'

namespace Parallel

variable {a a' : Arena} {α β : Type}

theorem pure (x : α) : Parallel names names' a a' (pure x) := by
  refine ⟨.pure x, fun h h' ht => ?_⟩
  cases h.run
  cases h'.run
  exact ⟨rfl, ht⟩

theorem bind {m : LowerM α} {f : α → LowerM β} (hm : Parallel names names' a a' m)
    (hf : ∀ x, Parallel names names' a a' (f x)) : Parallel names names' a a' (m >>= f) := by
  have hgrowing : ∀ x, Growing (f x) := fun x => (hf x).growing
  refine ⟨hm.growing.bind hgrowing, fun h h' ht => ?_⟩
  obtain ⟨x, r, hx, hy⟩ := h.bind hm.growing hgrowing
  obtain ⟨x', r', hx', hy'⟩ := h'.bind hm.growing hgrowing
  obtain ⟨rfl, ht⟩ := hm.twins hx hx' ht
  exact (hf x).twins hy hy' ht

end Parallel

namespace Lowering

variable {a a' : Arena}
variable {α : Type}

/-- Fragments that do the same go on from the same point to the same point. -/
theorem emit_twins {e e' : Emit α} (h : Alike names names' e e') {q' : Progress} {x x' : α}
    (hrun : (emit e).run p = (x, q)) (hrun' : (emit e').run p' = (x', q'))
    (ht : Twins names names' a a' p p') : x = x' ∧ Twins names names' a a' q q' := by
  obtain ⟨hx, hstream⟩ := h _ _ ht.stream
  cases hrun
  cases hrun'
  exact ⟨hx, hstream, ht.constants, ht.indexed, ht.indexed', ht.added⟩

theorem emit_parallel (e : Emit α) [Steady e] : Parallel names names' a a' (emit e) :=
  ⟨emit_growing e, fun h h' => emit_twins (Steady.alike names names') h.run h'.run⟩

/-- A constant that makes no error has its object, and code that loads from it. -/
theorem loadWide_ok {n : Node} {bits : BitVec 64} {x : Option Register}
    (h : (L.loadWide n bits).run p = (x, q)) (herr : q.errors.size ≤ p.errors.size) :
    ∃ b, p.arena.insert (constantObject s!"{L.name}#const{p.constants}" bits) =
        .ok (p.arena.size, b) ∧
      (emit (some <$> Emit.targeted .lqr (.object p.arena.size))).run
        { p with constants := p.constants + 1, arena := b } = (x, q) := by
  unfold loadWide at h
  simp only [StateT.run_bind, StateT.run_get, StateT.run_set, pure_bind] at h
  split at h
  · rename_i id b hadd
    obtain ⟨rfl, -⟩ := Arena.insert_ok hadd
    exact ⟨b, hadd, h⟩
  · cases h
    simp at herr

theorem loadWide_parallel (L : Lowering) (n : Node) (bits : BitVec 64) :
    Parallel names names' a a' (L.loadWide n bits) := by
  refine ⟨(L.loadWide_stepping n bits).growing, fun {p p' q q' x x'} h h' ht => ?_⟩
  obtain ⟨b, hb, hrun⟩ := loadWide_ok h.run h.errors
  obtain ⟨b', hb', hrun'⟩ := loadWide_ok h'.run h'.errors
  rw [← ht.constants] at hb'
  have hnames : names p.arena.size = names' p'.arena.size := by
    have hq := (h.names.before ((emit_growing _).grows hrun).arena) p.arena.size
    have hq' := (h'.names.before ((emit_growing _).grows hrun').arena) p'.arena.size
    obtain ⟨-, rfl⟩ := Arena.insert_ok hb
    obtain ⟨-, rfl⟩ := Arena.insert_ok hb'
    rw [hq _ (Arena.get?_push_size ..), hq' _ (Arena.get?_push_size ..)]
  have hcode := (Emit.targeted_alike hnames .lqr).bind fun r => .pure (some r)
  exact emit_twins hcode hrun hrun' (Twins.constant ht hb hb')

theorem lowerNode_parallel (L : Lowering) (n : Node) (regs : List Register) :
    Parallel names names' a a' (L.lowerNode n regs) := by
  have hgrowing := L.lowerNode_growing n regs
  unfold lowerNode at hgrowing ⊢
  revert hgrowing
  split
  · exact fun _ => L.loadWide_parallel n _
  · refine fun hgrowing => ⟨hgrowing, fun {p p' q q' x x'} h h' ht => ?_⟩
    -- an object that both sides find has the name that they look for
    have hsame : SameNames names names' p.arena p'.arena := by
      intro name id id' hid hid'
      obtain ⟨y, hy, rfl⟩ := (ht.indexed name id).mp hid
      obtain ⟨y', hy', hname⟩ := (ht.indexed' y.name id').mp hid'
      rw [(h.names.before (hgrowing.grows h.run).arena) id y hy,
        (h'.names.before (hgrowing.grows h'.run).arena) id' y' hy', hname]
    have hrun := h.run
    have hrun' := h'.run
    simp only [StateT.run_bind, StateT.run_get, pure_bind] at hrun hrun'
    split at hrun
    · rename_i e he
      split at hrun'
      · rename_i e' he'
        exact emit_twins (Code.of_alike hsame n _ e e' he he') hrun hrun' ht
      · cases hrun'
        have herr := h'.errors
        simp at herr
    · cases hrun
      have herr := h.errors
      simp at herr

theorem orFresh_parallel (o : Option Register) : Parallel names names' a a' (orFresh o) := by
  cases o with
  | none => exact emit_parallel Emit.fresh
  | some r => exact .pure r

mutual

theorem lower_parallel (L : Lowering) : ∀ n, Parallel names names' a a' (L.lower n)
  | .leaf h => by
    rw [lower]
    exact L.lowerNode_parallel _ _
  | .unary h l => by
    rw [lower]
    exact (L.lower_parallel l).bind fun o => (orFresh_parallel o).bind fun _ =>
      L.lowerNode_parallel _ _
  | .rightOnly h r => by
    rw [lower]
    exact (L.lower_parallel r).bind fun o => (orFresh_parallel o).bind fun _ =>
      L.lowerNode_parallel _ _
  | .binary h l r => by
    rw [lower]
    exact (L.lower_parallel l).bind fun o => (orFresh_parallel o).bind fun _ =>
      (L.lower_parallel r).bind fun o => (orFresh_parallel o).bind fun _ =>
      L.lowerNode_parallel _ _
  | .call h m args => by
    rw [lower]
    exact (L.lowerArgs_parallel args).bind fun _ => L.lowerNode_parallel _ _

theorem lowerArgs_parallel (L : Lowering) : ∀ ns, Parallel names names' a a' (L.lowerArgs ns)
  | [] => by
    rw [lowerArgs]
    exact .pure []
  | n :: ns => by
    rw [lowerArgs]
    exact (L.lower_parallel n).bind fun o => (orFresh_parallel o).bind fun _ =>
      (L.lowerArgs_parallel ns).bind fun _ => .pure _

end

theorem lowerRoots_parallel (L : Lowering) (ns : List Node) :
    Parallel names names' a a' (L.lowerRoots ns) := by
  induction ns with
  | nil => exact .pure ()
  | cons n ns ih => exact (L.lower_parallel n).bind fun _ => ih

/-- A block has the code since the last one. -/
theorem Clean.lowerBlocks_cons {b : Block} (h : Clean names (L.lowerBlocks (b :: bs)) p codes q) :
    ∃ r rest, codes = r.stream.code :: rest ∧ Clean names (L.lowerRoots b.roots.toList) p () r ∧
      Clean names (L.lowerBlocks bs) { r with stream := { r.stream with code := #[] } } rest q := by
  have hrest : ∀ code, Growing (L.lowerBlocks bs >>= fun codes => pure (code :: codes)) :=
    fun code => (L.lowerBlocks_growing bs).bind fun _ => .pure _
  obtain ⟨u, r, hroots, h⟩ := h.bind (L.lowerRoots_growing _) fun _ =>
    L.takeCode_stepping.growing.bind hrest
  obtain ⟨code, r', htake, h⟩ := h.bind L.takeCode_stepping.growing hrest
  obtain ⟨rest, q', hblocks, h⟩ := h.bind (L.lowerBlocks_growing bs) fun _ => .pure _
  have htaken : (r.stream.code, { r with stream := { r.stream with code := #[] } }) = (code, r') :=
    htake.run
  have hlast : (code :: rest, q') = (codes, q) := h.run
  cases htaken
  cases hlast
  exact ⟨r, rest, rfl, hroots, hblocks⟩

/-- The codes of blocks are the same with names in the place of numbers. -/
theorem lowerBlocks_twins {q' : Progress} {codes' : List (Array Instr)}
    (h : Clean names (L.lowerBlocks bs) p codes q)
    (h' : Clean names' (L.lowerBlocks bs) p' codes' q') (ht : Twins names names' a a' p p') :
    codes.map (nameCode names) = codes'.map (nameCode names') ∧ Twins names names' a a' q q' := by
  induction bs generalizing p p' codes codes' with
  | nil =>
    cases h.run
    cases h'.run
    exact ⟨rfl, ht⟩
  | cons b bs ih =>
    obtain ⟨r, rest, rfl, hroots, hrest⟩ := Clean.lowerBlocks_cons h
    obtain ⟨r', rest', rfl, hroots', hrest'⟩ := Clean.lowerBlocks_cons h'
    obtain ⟨-, ht⟩ := (L.lowerRoots_parallel _).twins hroots hroots' ht
    have hempty : SameStream names names' { r.stream with code := #[] }
        { r'.stream with code := #[] } := ⟨ht.stream.next, rfl⟩
    obtain ⟨hcodes, hq⟩ := ih hrest hrest'
      ⟨hempty, ht.constants, ht.indexed, ht.indexed', ht.added⟩
    exact ⟨by simp [ht.stream.code, hcodes], hq⟩

theorem lowerBlocks_length (h : Clean names (L.lowerBlocks bs) p codes q) :
    codes.length = bs.length := by
  induction bs generalizing p codes with
  | nil =>
    cases h.run
    rfl
  | cons b bs ih =>
    obtain ⟨r, rest, rfl, -, hrest⟩ := Clean.lowerBlocks_cons h
    exact congrArg (· + 1) (ih hrest)

end Lowering

/-! ## Targets -/

def resolveName (blocks : Nat → Option (Option String)) (i : NamedInstr) : NamedInstr :=
  match i.target with
  | some (.block b) =>
    match blocks b with
    | some name => { i with target := some (.object name) }
    | none => i
  | _ => i

theorem nameInstr_resolveTarget (body : Array ObjectId) (i : Instr) :
    nameInstr names (resolveTarget body i) =
      resolveName (fun b => body[b]?.map names) (nameInstr names i) := by
  unfold resolveTarget resolveName nameInstr
  match htarget : i.target with
  | none | some (.object id) => simp [htarget, nameTarget]
  | some (.block b) => cases hb : body[b]? <;> simp [htarget, hb, nameTarget]

theorem nameCode_resolveTarget (body : Array ObjectId) (code : Array Instr) :
    nameCode names (code.map (resolveTarget body)) =
      (nameCode names code).map (resolveName fun b => body[b]?.map names) := by
  simp [nameCode, nameInstr_resolveTarget]

/-! ## Objects of a routine -/

def namedBlock (routine : Option String) (name : String) (code : List NamedInstr) :
    String × NamedObject := (name, ⟨.block routine, none, code, [], none⟩)

theorem installBlocks_objects {a : Arena} {old xs rest : List Object} {bs : List SelectedBlock}
    (ha : a.objects.toList = old ++ (xs ++ rest))
    (hbs : bs.map (·.object) = List.range' old.length xs.length) :
    (SelectedRoutine.installBlocks a bs).objects.toList =
      old ++ (List.zipWith (fun x b => { x with code := b.code }) xs bs ++ rest) := by
  induction bs generalizing a old xs with
  | nil =>
    obtain rfl : xs = [] := by simpa using congrArg List.length hbs.symm
    exact ha
  | cons b bs ih =>
    cases xs with
    | nil => simp at hbs
    | cons x xs =>
      simp only [List.map_cons, List.length_cons, List.range'_succ, List.cons.injEq] at hbs
      have hset : (a.setCode b.object b.code).objects.toList =
          (old ++ [{ x with code := b.code }]) ++ (xs ++ rest) := by
        rw [Arena.setCode, Arena.modify, Array.toList_modify, ha, hbs.1, List.modify_eq_take_drop]
        simp
      rw [SelectedRoutine.installBlocks, ih hset (by simpa using hbs.2)]
      simp

theorem nameOf_install (s : SelectedRoutine) (a : Arena) : (s.install a).nameOf = a.nameOf := by
  have hblocks : ∀ (bs : List SelectedBlock) (b : Arena),
      (SelectedRoutine.installBlocks b bs).nameOf = b.nameOf := by
    intro bs
    induction bs with
    | nil => exact fun b => rfl
    | cons c bs ih => exact fun b => (ih _).trans (Arena.nameOf_modify fun _ => rfl)
  exact (Arena.nameOf_modify (Object.name_withEpilogue s.epilogue.object)).trans (hblocks _ a)

theorem length_blockNames (r : Routine) : (blockNames r).length = r.blocks.size + 2 := by
  simp [blockNames]

def prologueStream (o : Options) (r : Routine) : Stream :=
  (((Frame.of o r.vars).prologue o r.arguments).run { next := (Frame.of o r.vars).registers }).2

def lowerStart (o : Options) (r : Routine) (a : Arena) : Progress :=
  { stream := { prologueStream o r with code := #[] }, arena := a }

/-- The objects of blocks of trees, where that of the prologue is `start`. -/
def bodyObjects (r : Routine) (start : ObjectId) : Array ObjectId :=
  (List.range' (start + 1) r.blocks.size).toArray

def bodyNames (r : Routine) (k : Nat) : Option (Option String) :=
  if k < r.blocks.size then some (blockNames r)[k + 1]? else none

/-- A run of selection in its parts: the lowering between prologue and epilogue, and blocks with the
codes, in a row behind the older objects. -/
structure Parts (names : ObjectId → Option String) (o : Options) (a : Arena) (r : Routine)
    (id : ObjectId) (s : SelectedRoutine) (b : Arena) (codes : List (Array Instr)) (q : Progress) :
    Prop where
  routine : s.routine = id
  indexed : b.Indexed
  start : b.objects.toList = a.objects.toList ++ (blockNames r).map (blockObject id)
  run : Clean names (Lowering.lowerBlocks ⟨r.name, o, (Frame.of o r.vars).vars⟩ r.blocks.toList)
    (lowerStart o r b) codes q
  objects : s.allBlocks.map (·.object) = List.range' a.size (blockNames r).length
  epilogue : s.epilogue.object = a.size + (r.blocks.size + 1)
  codes : s.allBlocks.map (·.code) = (prologueStream o r).code ::
    codes.map (·.map (resolveTarget (bodyObjects r a.size))) ++
      [((Frame.of o r.vars).epilogue.run q.stream).2.code]

theorem select_parts {o : Options} {a a' : Arena} {r : Routine} {id : ObjectId}
    {s : SelectedRoutine} (h : select o a r id = .ok (s, a')) (ha : a.Indexed)
    (hnames : a'.NamedBy names) : ∃ b codes q, q.arena = a' ∧ Parts names o a r id s b codes q := by
  obtain ⟨objects, b, codes, p, q, e, halloc, rfl, hlow, rfl, -, herrors, rfl, rfl⟩ := select_run h
  obtain ⟨hprologue, hbody, hepilogue, hobjects⟩ := allocateBlocks_ok halloc
  have hrun : Clean names (Lowering.lowerBlocks ⟨r.name, o, (Frame.of o r.vars).vars⟩
      r.blocks.toList) (lowerStart o r b) codes q := ⟨hlow, by simp [herrors], hnames⟩
  have hlength : objects.body.toList.length = codes.length := by
    rw [Lowering.lowerBlocks_length hrun, hbody, List.length_range', Array.length_toList]
  obtain ⟨hids, hcodes⟩ := bodyBlocks_eq objects.body 0 hlength
  have hobject : objects.body = bodyObjects r a.size := by
    rw [bodyObjects, ← hbody, Array.toArray_toList]
  have hcodes : (bodyBlocks objects.body 0 objects.body.toList codes).map (·.code) =
      codes.map (·.map (resolveTarget objects.body)) := by
    rw [← List.forall₂_eq_eq_eq, List.forall₂_map_left_iff, List.forall₂_map_right_iff]
    exact hcodes.flip
  refine ⟨b, codes, q, rfl, rfl, ((allocateBlocks_adding r id).adds halloc).indexed ha, hobjects,
    hrun, ?_, hepilogue.trans (by rw [Nat.add_assoc, Nat.add_comm 1]), ?_⟩
  · simp only [SelectedRoutine.allBlocks, List.map_cons, List.map_append, hids, List.map_nil]
    rw [hprologue, hbody, hepilogue, length_blockNames, ← List.range'_succ, Nat.add_assoc,
      Nat.add_comm 1, ← List.range'_1_concat]
  · simp only [SelectedRoutine.allBlocks, List.map_cons, List.map_append, hcodes, List.map_nil,
      ← hobject]
    rfl

namespace Parts

variable {o : Options} {a b : Arena} {r : Routine} {id : ObjectId} {s : SelectedRoutine}
  {codes : List (Array Instr)} {q : Progress} {xs : List Object}

variable (h : Parts names o a r id s b codes q)

include h

theorem start_twins {a' b' : Arena} {id' : ObjectId} {s' : SelectedRoutine}
    {codes' : List (Array Instr)} {q' : Progress} (h' : Parts names' o a' r id' s' b' codes' q') :
    Twins names names' b b' (lowerStart o r b) (lowerStart o r b') :=
  ⟨⟨rfl, rfl⟩, rfl, h.indexed, h'.indexed, [], nofun, by simp [lowerStart], by simp [lowerStart]⟩

/-- Behind the blocks there are only constants. -/
theorem exists_constants :
    ∃ xs : List Object, (∀ x ∈ xs, ∃ name bits, x = constantObject name bits) ∧
      q.arena.objects.toList = b.objects.toList ++ xs := by
  obtain ⟨xs, hxs, hq, -⟩ := (Lowering.lowerBlocks_twins h.run h.run (h.start_twins h)).2.added
  exact ⟨xs, hxs, hq⟩

/-- The names of the objects of a routine stand in a row. -/
theorem names_block (hxs : q.arena.objects.toList = b.objects.toList ++ xs) {k : Nat}
    {name : String} (hk : (blockNames r)[k]? = some name) : names (a.size + k) = some name := by
  have hlt := (List.getElem?_eq_some_iff.mp hk).1
  have hget : q.arena.get? (a.size + k) = some (blockObject id name) := by
    rw [Arena.get?, ← Array.getElem?_toList, hxs, h.start, List.append_assoc,
      List.getElem?_append_right (by simp [Arena.size]),
      List.getElem?_append_left (by simp [Arena.size, hlt])]
    simp [Arena.size, hk]
  exact h.run.names _ _ hget

theorem names_body (hxs : q.arena.objects.toList = b.objects.toList ++ xs) :
    (fun k => (bodyObjects r a.size)[k]?.map names) = bodyNames r := by
  funext k
  unfold bodyNames
  split
  · rename_i hk
    have hk' : k + 1 < (blockNames r).length := by
      rw [length_blockNames]
      omega
    have hname := h.names_block hxs (List.getElem?_eq_getElem hk')
    rw [show a.size + (k + 1) = a.size + 1 + k by omega] at hname
    simp [bodyObjects, hk, hname]
  · rename_i hk
    simp [bodyObjects, hk]

theorem named_codes (hxs : q.arena.objects.toList = b.objects.toList ++ xs) :
    s.allBlocks.map (fun c => nameCode names c.code) = nameCode names (prologueStream o r).code ::
      (codes.map (nameCode names)).map (List.map (resolveName (bodyNames r))) ++
        [nameCode names ((Frame.of o r.vars).epilogue.run q.stream).2.code] := by
  have hcodes := congrArg (List.map (nameCode names)) h.codes
  simp only [List.map_map, List.map_cons, List.map_append, List.map_nil] at hcodes ⊢
  refine hcodes.trans ?_
  congr 2
  refine List.map_congr_left fun code _ => ?_
  simp only [Function.comp_apply, nameCode_resolveTarget, h.names_body hxs]

theorem install_objects (hxs : q.arena.objects.toList = b.objects.toList ++ xs) :
    (s.install q.arena).objects.toList = (a.objects.toList ++ (List.zipWith
      (fun name (c : SelectedBlock) => { blockObject id name with code := c.code }) (blockNames r)
        s.allBlocks ++ xs)).modify id (Object.withEpilogue s.epilogue.object) := by
  have hstart : q.arena.objects.toList =
      a.objects.toList ++ ((blockNames r).map (blockObject id) ++ xs) := by
    rw [hxs, h.start, List.append_assoc]
  have hrow : s.allBlocks.map (·.object) = List.range' a.objects.toList.length
      ((blockNames r).map (blockObject id)).length := by
    simpa [Arena.size] using h.objects
  have hblocks := installBlocks_objects hstart hrow
  rw [List.zipWith_map_left] at hblocks
  rw [← hblocks, ← h.routine]
  exact Array.toList_modify

/-- The objects that selection has added: the blocks with their codes, then the constants. -/
theorem new_objects (hid : id < a.size) (hxs : q.arena.objects.toList = b.objects.toList ++ xs) :
    nameObjects names ((s.install q.arena).objects.toList.drop a.size) =
      List.zipWith (namedBlock (names id)) (blockNames r)
        (s.allBlocks.map fun c => nameCode names c.code) ++ nameObjects names xs := by
  rw [h.install_objects hxs, List.drop_modify_of_lt _ _ _ _ hid, List.drop_left' (by rfl),
    nameObjects, List.map_append, List.map_zipWith, List.zipWith_map_right]
  rfl

/-- The older objects are as before, but that the routine has its epilogue. -/
theorem old_objects {k : ObjectId} {x : Object} (hx : a.get? k = some x) :
    (s.install q.arena).get? k =
      some (if k = id then x.withEpilogue s.epilogue.object else x) := by
  obtain ⟨xs, -, hxs⟩ := h.exists_constants
  have hlt := Arena.lt_size_of_get? hx
  have hk : a.objects.toList[k]? = some x := by rwa [Array.getElem?_toList]
  rw [Arena.get?, ← Array.getElem?_toList, h.install_objects hxs, List.getElem?_modify,
    List.getElem?_append_left hlt, hk]
  simp [eq_comm]

theorem names_epilogue : names s.epilogue.object = some s!"{r.name}#epilogue" := by
  obtain ⟨xs, -, hxs⟩ := h.exists_constants
  rw [h.epilogue]
  exact h.names_block hxs (by simp [blockNames])

end Parts

/-- The objects of a routine are the same in two arenas, with names in the place of numbers. -/
theorem select_independent {o : Options} {a a' b b' : Arena} {r : Routine} {id id' : ObjectId}
    {s s' : SelectedRoutine} (h : select o a r id = .ok (s, b))
    (h' : select o a' r id' = .ok (s', b')) (ha : a.Indexed) (ha' : a'.Indexed)
    (hid : id < a.size) (hid' : id' < a'.size) (hnames : b.NamedBy names)
    (hnames' : b'.NamedBy names') (hname : names id = names' id') :
    nameObjects names ((s.install b).objects.toList.drop a.size) =
      nameObjects names' ((s'.install b').objects.toList.drop a'.size) := by
  obtain ⟨b, codes, q, rfl, hp⟩ := select_parts h ha hnames
  obtain ⟨b', codes', q', rfl, hp'⟩ := select_parts h' ha' hnames'
  obtain ⟨hcodes, ht⟩ := Lowering.lowerBlocks_twins hp.run hp'.run (hp.start_twins hp')
  obtain ⟨xs, hxs, hq, hq'⟩ := ht.added
  have hprologue : nameCode names (prologueStream o r).code =
      nameCode names' (prologueStream o r).code :=
    (Steady.alike names names' _ _ ⟨rfl, rfl⟩).2.code
  have hepilogue : nameCode names ((Frame.of o r.vars).epilogue.run q.stream).2.code =
      nameCode names' ((Frame.of o r.vars).epilogue.run q'.stream).2.code :=
    (Steady.alike names names' _ _ ht.stream).2.code
  have hconstants : nameObjects names xs = nameObjects names' xs := by
    refine List.map_congr_left fun x hx => ?_
    obtain ⟨name, bits, rfl⟩ := hxs x hx
    rfl
  rw [hp.new_objects hid hq, hp'.new_objects hid' hq', hp.named_codes hq, hp'.named_codes hq', hname,
    hprologue, hcodes, hepilogue, hconstants]

end SpuCompiler.Selection
