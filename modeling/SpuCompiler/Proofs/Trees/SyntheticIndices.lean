import SpuCompiler.Proofs.Trees.StoredVariables

/-!
Indices of variables. Synthetic variables stand behind the declared ones and are numbered in the
order in which they are added, from a fixed base on. So two of them never have the same index, and
one of them has the index of a declared variable exactly where a method declares more variables of
a kind than the base.
-/

namespace SpuCompiler.Trees

open Metadata Bytecode

variable {v v' : Variables} {n : Node}

/-- Behind the declared variables stand the synthetic ones, numbered from the base on. -/
structure Variables.Numbered (declared : Nat) (v : Variables) : Prop where
  size : v.size = declared + v.synthetics
  role : ∀ k < v.synthetics, v.role (declared + k) = some (.synthetic, syntheticBase + k)

namespace Variables.Numbered

variable {declared : Nat} {v v' : Variables}

theorem of_role_eq (h : v.Numbered declared) (hrole : v'.role = v.role)
    (hcount : v'.synthetics = v.synthetics) : v'.Numbered declared := by
  refine ⟨?_, ?_⟩
  · rw [size_eq_of_role_eq hrole, hcount, h.size]
  · rw [hcount, hrole]
    exact h.role

theorem addSynthetic (h : v.Numbered declared) : v.addSynthetic.2.Numbered declared := by
  have hcount : v.addSynthetic.2.synthetics = v.synthetics + 1 := rfl
  refine ⟨?_, ?_⟩
  · rw [size_addSynthetic, hcount, h.size, Nat.add_assoc]
  · intro k hk
    rw [hcount] at hk
    rw [role_addSynthetic, h.size]
    by_cases hlast : k = v.synthetics
    · rw [if_pos (by omega), hlast]
    · rw [if_neg (by omega)]
      exact h.role k (by omega)

theorem addSynthetics (h : v.Numbered declared) (count : Nat) :
    (v.addSynthetics count).2.Numbered declared := by
  induction count generalizing v with
  | zero => exact h
  | succ count ih => exact ih h.addSynthetic

theorem markEscaping (h : v.Numbered declared) (id : Nat) :
    (v.markEscaping id).Numbered declared :=
  h.of_role_eq (role_markEscaping v id) rfl

end Variables.Numbered

theorem derive_numbered {declared : Nat} {n' : Node} (hv : v.Numbered declared)
    (h : derive v n = .ok (n', v')) : v'.Numbered declared := by
  obtain ⟨t, -, h⟩ := bind_eq_ok.mp h
  obtain ⟨vs, hvs, h⟩ := bind_eq_ok.mp h
  cases h
  rcases afterStore_ok hvs with rfl | ⟨id, t, rfl⟩
  · exact hv
  · exact hv.of_role_eq (Variables.role_modify v id _ fun _ => ⟨rfl, rfl⟩) rfl

namespace Builder

variable {declared target : Nat} {b b' : Builder} {r : Record} {n : Node} {o : Operand Ref}
  {reuse : Option (List Nat)}

def Numbered (declared : Nat) (b : Builder) : Prop := b.vars.Numbered declared

def Numbers {α : Type} (declared : Nat) (x : Except BuildError (α × Builder)) : Prop :=
  ∀ a b, x = .ok (a, b) → b.Numbered declared

namespace Numbers

variable {α β : Type}

theorem ok {p : α × Builder} (hb : p.2.Numbered declared) : Numbers declared (.ok p) := by
  rintro _ _ ⟨⟩
  exact hb

theorem error {e : BuildError} :
    Numbers declared (.error e : Except BuildError (α × Builder)) := by
  rintro _ _ ⟨⟩

theorem bind {x : Except BuildError (α × Builder)} {f : α × Builder → Except BuildError (β × Builder)}
    (hx : Numbers declared x) (hf : ∀ a b, b.Numbered declared → Numbers declared (f (a, b))) :
    Numbers declared (x >>= f) := by
  intro c b' h
  obtain ⟨⟨a, b⟩, ha, h⟩ := bind_eq_ok.mp h
  exact hf a b (hx a b ha) c b' h

end Numbers

/-! ## Nodes -/

variable (hb : b.Numbered declared)

include hb

theorem deriveType_numbers : Numbers declared (b.deriveType n) := by
  unfold deriveType
  split
  · rename_i hd
    exact .ok (derive_numbered hb hd)
  · exact .error

theorem pop_numbers : Numbers declared (b.pop r) := by
  unfold pop
  split
  · exact .ok hb
  · split
    · exact deriveType_numbers hb
    · exact .error

theorem popMany_numbers {values : List Node} {count : Nat} :
    Numbers declared (b.popMany r values count) := by
  induction count generalizing b values with
  | zero => exact .ok hb
  | succ count ih => exact (pop_numbers hb).bind fun _ _ hb => ih hb

/-- The operand that is a new temporary adds a variable. -/
theorem operand_numbers : Numbers declared (b.operand r) := by
  intro o b' h
  rcases operand_ok h with ⟨rfl, -⟩ | ⟨_, -, -, -, rfl⟩
  · exact hb
  · exact Variables.Numbered.addSynthetic hb

theorem plainNode_numbers : Numbers declared (b.plainNode r o) := by
  unfold plainNode callNode
  dsimp only
  split
  · split
    · exact (popMany_numbers hb).bind fun _ _ hb => .ok hb
    · exact .error
  · split
    · exact .ok hb
    · exact (pop_numbers hb).bind fun _ _ hb => .ok hb
  · exact (popMany_numbers hb).bind fun _ _ hb => .ok hb

theorem markAddress_numbered (n : Node) : (b.markAddress n).Numbered declared := by
  unfold markAddress
  split
  · exact hb.markEscaping _
  · exact hb.markEscaping _
  · exact hb

theorem elementOf_numbers {access : ElementAccess} {value : Option Node} :
    Numbers declared (b.elementOf r access value) :=
  (pop_numbers hb).bind fun _ _ hb => (pop_numbers hb).bind fun _ _ hb =>
    (deriveType_numbers hb).bind fun _ _ hb => deriveType_numbers hb

theorem node_numbers : Numbers declared (b.node r) := by
  unfold node
  split
  · rw [elementNode_eq]
    split
    · exact (pop_numbers hb).bind fun _ _ hb => elementOf_numbers hb
    · exact elementOf_numbers hb
  · exact (operand_numbers hb).bind fun _ _ hb => (plainNode_numbers hb).bind fun n _ hb =>
      deriveType_numbers (markAddress_numbered hb n)

/-! ## Flushes and spills -/

theorem addRoots_numbered (ns : List Node) : (b.addRoots ns).Numbered declared := by
  rw [addRoots_eq]
  exact hb

theorem flushTrees_numbered {ns : List Node}
    (h : b.flushTrees ns = .ok b') : b'.Numbered declared := by
  induction ns generalizing b with
  | nil =>
    cases h
    exact hb
  | cons n ns ih =>
    obtain ⟨⟨s, b₁⟩, hs, h⟩ := bind_eq_ok.mp h
    have hadded : ({ b with vars := b.vars.addSynthetic.2 } : Builder).Numbered declared :=
      Variables.Numbered.addSynthetic hb
    have hstored : b₁.Numbered declared := deriveType_numbers hadded _ _ hs
    refine ih ?_ h
    exact hstored

theorem storeAll_numbers {offset : Nat} {acc : Array Node} {pairs : List (Entry × Nat)} :
    Numbers declared (b.storeAll offset acc pairs) := by
  induction pairs generalizing b acc with
  | nil => exact .ok hb
  | cons pair rest ih =>
    obtain ⟨e, id⟩ := pair
    cases e with
    | carried source =>
      simp only [storeAll]
      split
      · exact ih hb
      · exact (deriveType_numbers hb).bind fun _ _ hb => (deriveType_numbers hb).bind fun _ _ hb =>
          ih hb
    | tree value => exact (deriveType_numbers hb).bind fun _ _ hb => ih hb

theorem entryVariables_numbers : Numbers declared (b.entryVariables r target reuse) := by
  unfold entryVariables
  dsimp only
  split
  · split
    · exact .ok hb
    · exact .error
  · split
    · exact .error
    · cases hreuse : reuse.filter (·.length = b.depth) with
      | some ids => exact .ok hb
      | none => exact .ok (Variables.Numbered.addSynthetics hb b.depth)

theorem spill_numbers : Numbers declared (b.spill r target reuse) :=
  (entryVariables_numbers hb).bind fun _ b hb =>
    (storeAll_numbers (show b.clearStack.Numbered declared from hb)).bind fun _ _ hb => .ok hb

/-! ## Steps -/

theorem branch_numbered (h : b.branch r n = .ok b') : b'.Numbered declared := by
  obtain ⟨target, stores, b₁, more, b₂, -, hs, hm, rfl⟩ := branch_ok h
  have h₁ := spill_numbers hb _ _ hs
  have h₂ : b₂.Numbered declared := by
    rcases hm with ⟨-, -, hm⟩ | ⟨-, -, rfl⟩
    · exact spill_numbers (show (b₁.onTarget target).Numbered declared from h₁) _ _ hm
    · exact h₁
  exact addRoots_numbered (addRoots_numbered h₂ stores) more

theorem place_numbered (h : b.place r n = .ok b') : b'.Numbered declared := by
  rcases place_ok h with ⟨-, rfl⟩ | ⟨-, -, b₁, hf, rfl⟩
  · exact hb
  · have h₁ : b₁.Numbered declared := flushTrees_numbered (b := { b with trees := [] }) hb hf
    exact h₁

theorem fallThrough_numbered (h : b.fallThrough r = .ok b') : b'.Numbered declared := by
  rcases fallThrough_ok h with ⟨-, stores, b₁, hs, rfl⟩ | ⟨-, rfl⟩
  · exact addRoots_numbered (spill_numbers hb _ _ hs) stores
  · exact hb

theorem step_numbered (h : b.step r = .ok b') : b'.Numbered declared := by
  have henter : (b.enterAt r.offset).Numbered declared := by
    obtain ⟨_, _, _, _, heq⟩ := b.enterAt_eq r.offset
    rw [heq]
    exact hb
  obtain ⟨n, b₁, hn, hrest⟩ := step_ok h
  have h₁ := node_numbers henter _ _ hn
  rcases hrest with ⟨-, hbranch⟩ | ⟨-, b₂, hp, hend⟩
  · exact branch_numbered h₁ hbranch
  · have h₂ := place_numbered h₁ hp
    rcases hend with ⟨-, rfl⟩ | ⟨-, hf⟩
    · exact h₂
    · exact fallThrough_numbered h₂ hf

theorem foldlM_numbered {records : List Record}
    (h : records.foldlM step b = .ok b') : b'.Numbered declared :=
  foldlM_invariant (fun _ _ _ _ => step_numbered) hb h

end Builder

/-! ## Routines -/

def Variables.declaredList (kind : VariableKind) (start : Nat) : List Ty → List Variable
  | [] => []
  | ty :: tys => ⟨kind, start, some ty, some (StackType.ofTy ty), .unknown, .unassigned⟩ ::
      declaredList kind (start + 1) tys

theorem Variables.declareAll_eq (v : Variables) (kind : VariableKind) (start : Nat)
    (tys : List Ty) : v.declareAll kind start tys =
      { v with entries := (v.entries.toList ++ declaredList kind start tys).toArray } := by
  induction tys generalizing v start with
  | nil => simp [declareAll, declaredList]
  | cons ty tys ih =>
    rw [declareAll, ih]
    simp [declare, declaredList]

/-- The builder before the first record, with its variables as one list. -/
def Builder.startListed (m : Method) (body : Body) (bs : List Nat) : Builder :=
  { start m body bs with
    vars := { entries := (Variables.declaredList .argument 0 m.argumentTypes ++
      Variables.declaredList .localVar 0 body.locals).toArray } }

theorem Builder.start_eq_startListed (m : Method) (body : Body) (bs : List Nat) :
    start m body bs = startListed m body bs := by
  simp [startListed, start, Variables.declareAll_eq]

theorem build_eq_startListed (m : Method) (body : Body) (resolver : Resolver) :
    build m body resolver = (do
      let records ← readRecords m body resolver
      let boundaries ← boundariesOf records body.instructions.length
      let builder ← records.foldlM Builder.step (Builder.startListed m body boundaries)
      return builder.finish) := by
  unfold build
  simp only [Builder.start_eq_startListed]

section Build

variable {m : Method} {body : Body} {resolver : Resolver} {routine : Routine}
variable {id : Nat}

namespace Builder

theorem synthetics_start (m : Method) (body : Body) (bs : List Nat) :
    (start m body bs).vars.synthetics = 0 := by
  rw [start_eq_startListed]
  rfl

theorem size_start (m : Method) (body : Body) (bs : List Nat) :
    (start m body bs).vars.size = m.argumentCount + body.locals.length := by
  have hempty : ({} : Variables).size = 0 := rfl
  simp only [start, Variables.size_declareAll, length_argumentTypes, hempty, Nat.zero_add]

theorem start_numbered (m : Method) (body : Body) (bs : List Nat) :
    (start m body bs).Numbered (m.argumentCount + body.locals.length) := by
  refine ⟨?_, ?_⟩
  · rw [size_start, synthetics_start, Nat.add_zero]
  · rw [synthetics_start]
    intro k hk
    omega

/-- The roles of the variables that a method declares. -/
theorem role_start_of_lt (m : Method) (body : Body) (bs : List Nat)
    (h : id < m.argumentCount + body.locals.length) :
    (start m body bs).vars.role id =
      if id < m.argumentCount then some (.argument, id)
      else some (.localVar, id - m.argumentCount) := by
  have hempty : ({} : Variables).size = 0 := rfl
  simp only [start, Variables.role_declareAll, Variables.size_declareAll, length_argumentTypes,
    hempty, Nat.zero_add, Nat.zero_le, Nat.sub_zero, true_and]
  by_cases harg : id < m.argumentCount
  · rw [if_neg (by omega), if_pos harg, if_pos harg]
  · rw [if_pos (by omega), if_neg harg]

end Builder

/-- The roles of all variables of a routine: arguments, locals and synthetic variables follow each
other, each kind with its own numbers. -/
theorem role_of_build (h : build m body resolver = .ok routine) (id : Nat) :
    routine.vars.role id =
      if id < m.argumentCount then some (.argument, id)
      else if id < m.argumentCount + body.locals.length then
        some (.localVar, id - m.argumentCount)
      else if id < m.argumentCount + body.locals.length + routine.vars.synthetics then
        some (.synthetic, syntheticBase + (id - (m.argumentCount + body.locals.length)))
      else none := by
  obtain ⟨records, hread, -⟩ := bind_eq_ok.mp h
  obtain ⟨bs, f, ht, rfl⟩ := Translation.of_build hread h
  have hnumbered : f.finish.vars.Numbered (m.argumentCount + body.locals.length) :=
    Builder.foldlM_numbered (Builder.start_numbered m body bs) ht.built
  have hextends : (Builder.start m body bs).vars.Extends f.finish.vars :=
    (ht.point_start.widens ht).vars
  by_cases hdeclared : id < m.argumentCount + body.locals.length
  · rw [if_pos hdeclared, hextends.role id (by rw [Builder.size_start]; exact hdeclared),
      Builder.role_start_of_lt m body bs hdeclared]
  · rw [if_neg (by omega), if_neg hdeclared]
    split
    · have hrole := hnumbered.role (id - (m.argumentCount + body.locals.length)) (by omega)
      rwa [Nat.add_sub_of_le (by omega)] at hrole
    · rw [Variables.role_eq_none_iff, hnumbered.size]
      omega

/-- Kind and index of a variable by its place. -/
theorem role_cases (h : build m body resolver = .ok routine) {i : Nat} {kind : VariableKind}
    (hrole : routine.vars.role id = some (kind, i)) :
    (kind = .argument ∧ i < m.argumentCount) ∨ (kind = .localVar ∧ i < body.locals.length) ∨
      (kind = .synthetic ∧ id + syntheticBase = m.argumentCount + body.locals.length + i ∧
        syntheticBase ≤ i ∧ 0 < routine.vars.synthetics) := by
  rw [role_of_build h] at hrole
  split at hrole
  · cases hrole
    exact .inl ⟨rfl, by omega⟩
  · split at hrole
    · cases hrole
      exact .inr (.inl ⟨rfl, by omega⟩)
    · split at hrole
      · cases hrole
        exact .inr (.inr ⟨rfl, by omega, by omega, by omega⟩)
      · cases hrole

theorem mem_syntheticIds : id ∈ v.syntheticIds ↔ ∃ i, v.role id = some (.synthetic, i) := by
  simp only [Variables.syntheticIds, Variables.role, Variables.get?, Variables.size,
    List.mem_filter, List.mem_range]
  cases hx : v.entries[id]? with
  | none => simp
  | some x =>
    have hlt := (Array.getElem?_eq_some_iff.mp hx).1
    simp [hlt]

/-- The first synthetic variable, if there is one, has the base as its index. -/
theorem role_first (h : build m body resolver = .ok routine) (hsome : routine.vars.syntheticIds ≠ []) :
    routine.vars.role (m.argumentCount + body.locals.length) = some (.synthetic, syntheticBase) := by
  obtain ⟨id, hid⟩ := List.exists_mem_of_ne_nil _ hsome
  obtain ⟨i, hi⟩ := mem_syntheticIds.mp hid
  have hcount : 0 < routine.vars.synthetics := by
    rcases role_cases h hi with ⟨hkind, -⟩ | ⟨hkind, -⟩ | ⟨-, -, -, hcount⟩
    · cases hkind
    · cases hkind
    · exact hcount
  rw [role_of_build h, if_neg (by omega), if_neg (by omega), if_pos (by omega), Nat.sub_self]
  rfl

/-- Two synthetic variables of a routine have different indices. None has the index of an argument
or of a local exactly where there are no synthetic variables or the method has no more arguments
and no more locals than the base. -/
theorem build_indices (h : build m body resolver = .ok routine) :
    (∀ id id' i, routine.vars.role id = some (.synthetic, i) →
      routine.vars.role id' = some (.synthetic, i) → id = id') ∧
    ((∀ id id' kind i, routine.vars.role id = some (.synthetic, i) →
        routine.vars.role id' = some (kind, i) → kind = .synthetic) ↔
      routine.vars.syntheticIds = [] ∨
        (m.argumentCount ≤ syntheticBase ∧ body.locals.length ≤ syntheticBase)) := by
  refine ⟨?_, ?_, ?_⟩
  · intro id id' i hid hid'
    rcases role_cases h hid with ⟨hkind, -⟩ | ⟨hkind, -⟩ | ⟨-, hplace, -⟩
    · cases hkind
    · cases hkind
    · rcases role_cases h hid' with ⟨hkind, -⟩ | ⟨hkind, -⟩ | ⟨-, hplace', -⟩
      · cases hkind
      · cases hkind
      · omega
  · intro hapart
    by_contra hmany
    rw [not_or, not_and_or, Nat.not_le, Nat.not_le] at hmany
    obtain ⟨hsome, hmany⟩ := hmany
    have hfirst := role_first h hsome
    -- the declared variable with the base as its index
    rcases hmany with harguments | hlocals
    · have hclash : routine.vars.role syntheticBase = some (.argument, syntheticBase) := by
        rw [role_of_build h, if_pos harguments]
      cases hapart _ _ _ _ hfirst hclash
    · have hclash : routine.vars.role (m.argumentCount + syntheticBase) =
          some (.localVar, syntheticBase) := by
        rw [role_of_build h, if_neg (by omega), if_pos (by omega), Nat.add_sub_cancel_left]
      cases hapart _ _ _ _ hfirst hclash
  · intro hfew id id' kind i hid hid'
    rcases role_cases h hid with ⟨hkind, -⟩ | ⟨hkind, -⟩ | ⟨-, -, hbase, -⟩
    · cases hkind
    · cases hkind
    · rcases hfew with hnone | ⟨harguments, hlocals⟩
      · exact absurd (mem_syntheticIds.mpr ⟨i, hid⟩) (hnone ▸ List.not_mem_nil)
      · rcases role_cases h hid' with ⟨-, hlt⟩ | ⟨-, hlt⟩ | ⟨hkind, -⟩
        · omega
        · omega
        · exact hkind

end Build

/-- A method with two locals, both of which it sets to one duplicated value. -/
def pairMethod : Method := { name := "Pair", parameters := [.i4] }

def pairBody : Body := { code := [0x17, 0x25, 0x0A, 0x0B, 0x2A], locals := [.i4, .i4] }

theorem pair_indices : ∃ routine,
    build pairMethod pairBody ({} : TokenTable).resolver = .ok routine ∧
      routine.vars.syntheticIds = [3, 4] ∧
      ∀ id id' kind i, routine.vars.role id = some (.synthetic, i) →
        routine.vars.role id' = some (kind, i) → kind = .synthetic := by
  have hids : (build pairMethod pairBody ({} : TokenTable).resolver).toOption.map
      (fun r => r.vars.syntheticIds) = some [3, 4] := by decide +kernel
  obtain ⟨routine, hroutine, hids⟩ := Option.map_eq_some_iff.mp hids
  have hbuild := toOption_eq_some.mp hroutine
  exact ⟨routine, hbuild, hids, (build_indices hbuild).2.mpr (.inr ⟨by decide, by decide⟩)⟩

/-- A method with one local more than the base, which duplicates a value. -/
def crowdedMethod : Method := { name := "Crowded", parameters := [] }

def crowdedBody : Body :=
  { code := [0x17, 0x25, 0x26, 0x26, 0x2A], locals := List.replicate 1001 .i4 }

/-- The last local and the first synthetic variable have one index. -/
theorem crowded_collides : ∃ routine,
    build crowdedMethod crowdedBody ({} : TokenTable).resolver = .ok routine ∧
      routine.vars.role 1000 = some (.localVar, 1000) ∧
      routine.vars.role 1001 = some (.synthetic, 1000) := by
  have hroles : (build crowdedMethod crowdedBody ({} : TokenTable).resolver).toOption.map
      (fun r => (r.vars.role 1000, r.vars.role 1001)) =
        some (some (.localVar, 1000), some (.synthetic, 1000)) := by
    rw [build_eq_startListed]
    decide +kernel
  obtain ⟨routine, hroutine, hroles⟩ := Option.map_eq_some_iff.mp hroles
  exact ⟨routine, toOption_eq_some.mp hroutine, congrArg Prod.fst hroles, congrArg Prod.snd hroles⟩

end SpuCompiler.Trees
