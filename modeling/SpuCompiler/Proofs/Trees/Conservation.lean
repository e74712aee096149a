import Mathlib.Data.Multiset.AddSub
import Mathlib.Data.Multiset.MapFold
import Mathlib.Tactic.Abel
import SpuCompiler.Proofs.Trees.Roots
import SpuCompiler.Proofs.Trees.Translation

/-!
Where records go. The nodes of a block, counted with their multiplicity, are the nodes of the
records of that block and the loads and stores that move values through added variables. A record
adds its own nodes to the current block and nothing else goes away: what leaves the stack becomes
a child or is stored, and a block is left only when the stack holds no tree.
-/

namespace SpuCompiler.Bytecode.Record

/-- Operation and offset of the nodes of a record. An element access has two, the address of the
element and the access through it. -/
def stamps (r : Record) : List (Op × Nat) :=
  match r.op.elementAccess? with
  | some access => [(.ldelema, r.offset), (access.indirect, r.offset)]
  | none => [(r.op, r.offset)]

theorem offset_of_mem_stamps {r : Record} {s : Op × Nat} (h : s ∈ r.stamps) : s.2 = r.offset := by
  unfold stamps at h
  split at h
  · rcases List.mem_pair.mp h with rfl | rfl <;> rfl
  · rw [List.mem_singleton.mp h]

end SpuCompiler.Bytecode.Record

namespace SpuCompiler.Trees

open Metadata Bytecode

/-! ## Nodes of trees -/

namespace Node

def stamp (n : Node) : Op × Nat := (n.op, n.offset)

def nodes (n : Node) : Multiset Node := ↑n.postorder

def nodesOf (ns : List Node) : Multiset Node := ↑(ns.flatMap postorder)

@[simp] theorem nodesOf_nil : nodesOf [] = 0 := rfl

@[simp] theorem nodesOf_cons (n : Node) (ns : List Node) :
    nodesOf (n :: ns) = n.nodes + nodesOf ns := by
  simp [nodesOf, nodes, Multiset.coe_add]

@[simp] theorem nodesOf_append (ns ns' : List Node) :
    nodesOf (ns ++ ns') = nodesOf ns + nodesOf ns' := by
  simp [nodesOf, Multiset.coe_add]

@[simp] theorem nodesOf_reverse (ns : List Node) : nodesOf ns.reverse = nodesOf ns := by
  induction ns with
  | nil => rfl
  | cons n ns ih => simp [ih, add_comm]

theorem nodes_eq (n : Node) : n.nodes = nodesOf n.children + {n} := by
  rw [nodes, postorder_eq, ← Multiset.coe_add]
  rfl

theorem stamp_withType (t : StackType) (n : Node) : (n.withType t).stamp = n.stamp := by
  simp [stamp]

/-- A load or a store of a variable that the builder added. -/
def Transfers (v : Variables) (n : Node) : Prop :=
  (n.op = .ldloc ∨ n.op = .stloc) ∧ ∃ id i, n.varId? = some id ∧ v.role id = some (.synthetic, i)

end Node

open Node

/-- The nodes `ns'` are the nodes `ns` and some transfers with offsets in `S`. -/
def Gains (v : Variables) (S : Nat → Prop) (ns ns' : Multiset Node) : Prop :=
  ∃ moved, ns' = ns + moved ∧ ∀ n ∈ moved, n.Transfers v ∧ S n.offset

namespace Gains

variable {v : Variables} {S : Nat → Prop} {ns ns' ns'' : Multiset Node}

theorem refl (ns : Multiset Node) : Gains v S ns ns := ⟨0, by simp, by simp⟩

theorem trans (h : Gains v S ns ns') (h' : Gains v S ns' ns'') : Gains v S ns ns'' := by
  obtain ⟨moved, rfl, hm⟩ := h
  obtain ⟨moved', rfl, hm'⟩ := h'
  refine ⟨moved + moved', by rw [add_assoc], ?_⟩
  intro n hn
  rcases Multiset.mem_add.mp hn with hn | hn
  · exact hm n hn
  · exact hm' n hn

theorem add_right (h : Gains v S ns ns') (k : Multiset Node) : Gains v S (ns + k) (ns' + k) := by
  obtain ⟨moved, rfl, hm⟩ := h
  exact ⟨moved, by abel, hm⟩

theorem add_left (h : Gains v S ns ns') (k : Multiset Node) : Gains v S (k + ns) (k + ns') := by
  rw [add_comm k ns, add_comm k ns']
  exact h.add_right k

theorem single {n : Node} (hn : n.Transfers v) (hS : S n.offset) (ns : Multiset Node) :
    Gains v S ns (ns + {n}) := by
  refine ⟨{n}, rfl, ?_⟩
  intro k hk
  rw [Multiset.mem_singleton.mp hk]
  exact ⟨hn, hS⟩

end Gains

namespace Builder

variable {v : Variables} {id : Nat}

/-- Everything carried is a variable that the builder added. -/
def CarriesSynthetic (v : Variables) (ids : List Nat) : Prop :=
  ∀ id ∈ ids, ∃ i, v.role id = some (.synthetic, i)

theorem transfers_loadNode (h : ∃ i, v.role id = some (.synthetic, i)) (offset : Nat)
    (t : StackType) : (loadNode id offset t).Transfers v := by
  obtain ⟨i, hi⟩ := h
  exact ⟨.inl rfl, id, i, rfl, hi⟩

theorem transfers_storeNode (h : ∃ i, v.role id = some (.synthetic, i)) (value : Node)
    (offset : Nat) : (storeNode id value offset).Transfers v := by
  obtain ⟨i, hi⟩ := h
  exact ⟨.inr rfl, id, i, rfl, hi⟩

theorem nodes_loadNode (id offset : Nat) (t : StackType) :
    (loadNode id offset t).nodes = {loadNode id offset t} := by
  rw [nodes_eq]
  simp [loadNode, Node.children]

theorem nodes_storeNode (id : Nat) (value : Node) (offset : Nat) :
    (storeNode id value offset).nodes = value.nodes + {storeNode id value offset} := by
  rw [nodes_eq]
  simp [storeNode, Node.children]

/-- A store adds one transfer to the nodes of its value. -/
theorem gains_storeNode {S : Nat → Prop} {offset : Nat} (h : ∃ i, v.role id = some (.synthetic, i))
    (hS : S offset) (value : Node) : Gains v S value.nodes (storeNode id value offset).nodes := by
  rw [nodes_storeNode]
  exact .single (transfers_storeNode h value offset) hS _

/-! ## Popping -/

section Popping

variable {v : Variables} {S : Nat → Prop} {b b' : Builder} {r : Record}
variable {n : Node} {o : Operand Ref}

theorem pop_gains (hS : S r.offset) (hc : CarriesSynthetic v b.carried)
    (h : b.pop r = .ok (n, b')) :
    Gains v S (nodesOf b.trees) (n.nodes + nodesOf b'.trees) ∧ CarriesSynthetic v b'.carried := by
  unfold pop at h
  split at h
  · rename_i htrees
    cases h
    rw [htrees, nodesOf_cons]
    exact ⟨.refl _, hc⟩
  · rename_i htrees
    split at h
    · rename_i id carried hcarried
      obtain ⟨t, vars, rfl, rfl, -⟩ := load_ok h
      rw [hcarried] at hc
      refine ⟨?_, fun id hid => hc id (by simp [hid])⟩
      rw [nodes_loadNode, add_comm]
      exact .single (transfers_loadNode (hc id (by simp)) _ t) hS _
    · simp [stackError] at h

theorem popMany_gains {values out : List Node} {count : Nat} (hS : S r.offset)
    (hc : CarriesSynthetic v b.carried) (h : b.popMany r values count = .ok (out, b')) :
    Gains v S (nodesOf values + nodesOf b.trees) (nodesOf out + nodesOf b'.trees) ∧
      CarriesSynthetic v b'.carried := by
  induction count generalizing b values with
  | zero =>
    cases h
    exact ⟨.refl _, hc⟩
  | succ count ih =>
    obtain ⟨⟨n, b1⟩, hp, h⟩ := bind_eq_ok.mp h
    obtain ⟨hpop, hc1⟩ := pop_gains hS hc hp
    obtain ⟨hrest, hc'⟩ := ih hc1 h
    refine ⟨Gains.trans ?_ hrest, hc'⟩
    have hadd := hpop.add_left (nodesOf values)
    rw [nodesOf_cons]
    rwa [← add_assoc, add_comm (nodesOf values) n.nodes] at hadd

/-- The children of the node of a record come from the stack. -/
theorem plainNode_gains (hS : S r.offset) (hc : CarriesSynthetic v b.carried)
    (he : r.op.elementAccess? = none) (h : b.plainNode r o = .ok (n, b')) :
    Gains v S (nodesOf b.trees) (nodesOf n.children + nodesOf b'.trees) ∧
      n.stamp = (r.op, r.offset) := by
  unfold plainNode at h
  dsimp only at h
  split at h
  · unfold callNode at h
    split at h
    · obtain ⟨⟨args, b1⟩, hp, h⟩ := bind_eq_ok.mp h
      cases h
      have hgains := (popMany_gains hS hc hp).1
      rw [nodesOf_nil, zero_add] at hgains
      exact ⟨hgains, rfl⟩
    · simp at h
  · split at h
    · cases h
      exact ⟨by simpa [Node.children] using Gains.refl _, rfl⟩
    · obtain ⟨⟨value, b1⟩, hp, h⟩ := bind_eq_ok.mp h
      cases h
      exact ⟨by simpa [Node.children] using (pop_gains hS hc hp).1, rfl⟩
  · rename_i count hpops
    obtain ⟨⟨values, b1⟩, hp, h⟩ := bind_eq_ok.mp h
    cases h
    obtain ⟨es, args, rfl, -, hys, hlen, -⟩ := popMany_ok hp
    have hle : (args ++ []).length ≤ 2 := by
      rw [List.append_nil, ← hys.length_eq, hlen]
      exact pops_le_two he hpops
    have hgains := (popMany_gains hS hc hp).1
    rw [nodesOf_nil, zero_add] at hgains
    refine ⟨?_, by simp [stamp, Node.op, Node.offset, head_plain]⟩
    rw [children_plain _ hle]
    exact hgains

theorem trees_markAddress (b : Builder) (n : Node) : (b.markAddress n).trees = b.trees := by
  unfold markAddress
  split <;> rfl

theorem operand_stack (h : b.operand r = .ok (o, b')) :
    b'.trees = b.trees ∧ b'.carried = b.carried := by
  rcases operand_ok h with ⟨rfl, -⟩ | ⟨_, -, -, -, rfl⟩ <;> exact ⟨rfl, rfl⟩

theorem elementOf_gains {access : ElementAccess} {value : Option Node} (hS : S r.offset)
    (hc : CarriesSynthetic v b.carried) (he : r.op.elementAccess? = some access)
    (h : b.elementOf r access value = .ok (n, b')) :
    ∃ own : Multiset Node, own.map stamp = ↑r.stamps ∧
      Gains v S (nodesOf value.toList + nodesOf b.trees + own) (n.nodes + nodesOf b'.trees) := by
  obtain ⟨⟨index, b1⟩, hi, h⟩ := bind_eq_ok.mp h
  obtain ⟨⟨array, b2⟩, ha, h⟩ := bind_eq_ok.mp h
  obtain ⟨⟨address, b3⟩, hd, h⟩ := bind_eq_ok.mp h
  obtain ⟨hindex, hc1⟩ := pop_gains hS hc hi
  obtain ⟨harray, -⟩ := pop_gains hS hc1 ha
  obtain ⟨t, vars, -, haddress, rfl, -⟩ := deriveType_ok hd
  obtain ⟨t', vars', -, hn, rfl, -⟩ := deriveType_ok h
  -- the address stands over array and index, the access over the address and the value
  have hnodes : address.nodes = array.nodes + index.nodes + {address} := by
    rw [nodes_eq, haddress, Node.children_withType]
    simp [Node.children]
  have hchildren : nodesOf n.children = address.nodes + nodesOf value.toList := by
    rw [hn, Node.children_withType]
    cases value <;> simp [Node.plain, Node.children]
  refine ⟨{address} + {n}, ?_, ?_⟩
  · have haddr : address.stamp = (.ldelema, r.offset) := by
      rw [haddress, stamp_withType]
      rfl
    have hstamp : n.stamp = (access.indirect, r.offset) := by
      rw [hn, stamp_withType]
      simp [stamp, Node.op, Node.offset, head_plain]
    simp only [Multiset.map_add, Multiset.map_singleton, hstamp, haddr, Record.stamps, he]
    rfl
  · have hpops := hindex.trans (harray.add_left index.nodes)
    have hadd := hpops.add_right (nodesOf value.toList + {address} + {n})
    rw [nodes_eq, hchildren, hnodes]
    convert hadd using 1 <;> abel

/-- The node of a record adds its own nodes and loads of what was carried. -/
theorem node_gains (hS : S r.offset) (hc : CarriesSynthetic v b.carried)
    (h : b.node r = .ok (n, b')) :
    ∃ own : Multiset Node, own.map stamp = ↑r.stamps ∧
      Gains v S (nodesOf b.trees + own) (n.nodes + nodesOf b'.trees) := by
  unfold node at h
  split at h
  · rename_i access he
    rw [elementNode_eq] at h
    split at h
    · obtain ⟨⟨value, b1⟩, hp, h⟩ := bind_eq_ok.mp h
      obtain ⟨hvalue, hc1⟩ := pop_gains hS hc hp
      obtain ⟨own, hown, hgains⟩ := elementOf_gains hS hc1 he h
      refine ⟨own, hown, (hvalue.add_right own).trans ?_⟩
      simpa using hgains
    · obtain ⟨own, hown, hgains⟩ := elementOf_gains hS hc he h
      exact ⟨own, hown, by simpa using hgains⟩
  · rename_i he
    obtain ⟨⟨o, b1⟩, ho, h⟩ := bind_eq_ok.mp h
    obtain ⟨⟨n1, b2⟩, hn, h⟩ := bind_eq_ok.mp h
    obtain ⟨htrees, hcarried⟩ := operand_stack ho
    obtain ⟨hgains, hstamp⟩ := plainNode_gains hS (hcarried ▸ hc) he hn
    obtain ⟨t, vars, -, rfl, rfl, -⟩ := deriveType_ok h
    refine ⟨{n1.withType t}, ?_, ?_⟩
    · simp [stamp_withType, hstamp, Record.stamps, he]
    · have hadd := hgains.add_right {n1.withType t}
      rw [htrees] at hadd
      rw [nodes_eq, Node.children_withType]
      change Gains v S _ (_ + nodesOf (b2.markAddress n1).trees)
      rw [trees_markAddress]
      convert hadd using 1
      abel

end Popping

/-! ## Storing -/

section Storing

variable {v : Variables} {S : Nat → Prop} {b b' : Builder} {r : Record}
variable {offset target : Nat} {pairs : List (Entry × Nat)} {reuse : Option (List Nat)}
  {ns stores : List Node}

def Entry.tree? : Entry → Option Node
  | .carried _ => none
  | .tree n => some n

@[simp] theorem tree?_carried (id : Nat) : (Entry.carried id).tree? = none := rfl

@[simp] theorem tree?_tree (n : Node) : (Entry.tree n).tree? = some n := rfl

theorem filterMap_stackEntries (b : Builder) :
    b.stackEntries.filterMap Entry.tree? = b.trees.reverse := by
  simp [stackEntries, List.filterMap_map, Function.comp_def]

/-- Every store has its place among the variables that the builder added. -/
def Holding (v : Variables) (pairs : List (Entry × Nat)) : Prop :=
  ∀ e id, (e, id) ∈ pairs → (∃ i, v.role id = some (.synthetic, i)) ∧
    ∀ source, e = .carried source → ∃ i, v.role source = some (.synthetic, i)

theorem storeAll_gains {acc out : Array Node} (hS : S offset) (hp : Holding v pairs)
    (h : b.storeAll offset acc pairs = .ok (out, b')) :
    Gains v S (nodesOf acc.toList + nodesOf (pairs.filterMap fun p => p.1.tree?))
      (nodesOf out.toList) := by
  induction pairs generalizing b acc with
  | nil =>
    cases h
    exact ⟨0, by simp, by simp⟩
  | cons pair rest ih =>
    obtain ⟨e, id⟩ := pair
    obtain ⟨hid, hsource⟩ := hp e id (by simp)
    have hrest : Holding v rest := fun e i hi => hp e i (by simp [hi])
    -- a store behind the ones there are, and then the rest
    have hstore : ∀ {b1 : Builder} {value : Node} {ns : Multiset Node},
        Gains v S ns value.nodes →
        b1.storeAll offset (acc.push (storeNode id value offset)) rest = .ok (out, b') →
        Gains v S (nodesOf acc.toList + (ns + nodesOf (rest.filterMap fun p => p.1.tree?)))
          (nodesOf out.toList) := by
      intro b1 value ns hvalue h
      have hnext := ih hrest h
      simp only [Array.toList_push, nodesOf_append, nodesOf_cons, nodesOf_nil, add_zero] at hnext
      refine Gains.trans ?_ hnext
      rw [add_assoc]
      exact ((hvalue.trans (gains_storeNode hid hS value)).add_right _).add_left _
    cases e with
    | carried source =>
      rw [List.filterMap_cons_none rfl]
      simp only [storeAll] at h
      split at h
      · exact ih hrest h
      · obtain ⟨⟨value, b1⟩, hl, h⟩ := bind_eq_ok.mp h
        obtain ⟨t, vars1, rfl, rfl, -⟩ := load_ok hl
        obtain ⟨⟨s, b2⟩, hs, h⟩ := bind_eq_ok.mp h
        obtain ⟨rfl, vars2, rfl, -⟩ := store_ok hs
        have hload : Gains v S 0 (loadNode source offset t).nodes := by
          rw [nodes_loadNode, ← zero_add {loadNode source offset t}]
          exact .single (transfers_loadNode (hsource source rfl) offset t) hS 0
        simpa using hstore hload h
    | tree value =>
      obtain ⟨⟨s, b1⟩, hs, h⟩ := bind_eq_ok.mp h
      obtain ⟨rfl, vars1, rfl, -⟩ := store_ok hs
      simpa using hstore (.refl value.nodes) h

/-- The stores of a spill hold the trees of the stack. -/
theorem spill_gains (hS : S r.offset) (hs : b.Separated) (hreuse : b.Reuses reuse)
    (hext : b'.vars.Extends v) (h : b.spill r target reuse = .ok (stores, b')) :
    Gains v S (nodesOf b.trees) (nodesOf stores) := by
  obtain ⟨hs', hw⟩ := spill_separated hs hreuse h
  obtain ⟨⟨ids, b1⟩, he, h⟩ := bind_eq_ok.mp h
  obtain ⟨hlen, vars, entries, henters, rfl⟩ := entryVariables_ok he
  obtain ⟨⟨out, b2⟩, hstore, h⟩ := bind_eq_ok.mp h
  cases h
  obtain ⟨-, vars', -, -, rfl, -⟩ := storeAll_ok hstore
  have hpairs : Holding v (b.stackEntries.zip ids) := by
    intro e id hmem
    obtain ⟨hentry, hid⟩ := List.of_mem_zip hmem
    refine ⟨isSynthetic_of_extends hext (hs'.recorded _ henters.mem id hid), ?_⟩
    rintro source rfl
    have hsource : source ∈ b.carried := by simpa [stackEntries] using hentry
    exact isSynthetic_of_extends (hw.vars.trans hext) (hs.carried source hsource).1
  have hgains := storeAll_gains (S := S) hS hpairs hstore
  have htrees : (b.stackEntries.zip ids).filterMap (fun p => p.1.tree?) = b.trees.reverse := by
    have hfst : (b.stackEntries.zip ids).map Prod.fst = b.stackEntries :=
      List.map_fst_zip (by rw [length_stackEntries, hlen])
    rw [← filterMap_stackEntries]
    nth_rewrite 2 [← hfst]
    rw [List.filterMap_map]
    rfl
  rw [htrees] at hgains
  simpa using hgains

theorem flushStores_gains
    (hid : ∀ i ∈ List.range' id ns.length, ∃ j, v.role i = some (.synthetic, j))
    (hS : ∀ n ∈ ns, S n.offset) : Gains v S (nodesOf ns) (nodesOf (flushStores id ns)) := by
  induction ns generalizing id with
  | nil => exact .refl _
  | cons n ns ih =>
    rw [List.length_cons, List.range'_succ] at hid
    have hrest := ih (fun i hi => hid i (List.mem_cons_of_mem _ hi)) (fun k hk => hS k (by simp [hk]))
    rw [flushStores, nodesOf_cons, nodesOf_cons]
    exact ((gains_storeNode (hid id (by simp)) (hS n (by simp)) n).add_right _).trans
      (hrest.add_left _)

theorem op_flushStores : ∀ s ∈ flushStores id ns, s.op = .stloc := by
  induction ns generalizing id with
  | nil => simp [flushStores]
  | cons n ns ih =>
    intro s hs
    rcases List.mem_cons.mp hs with rfl | hs
    · rfl
    · exact ih s hs

theorem Moves.op_eq (h : Moves offset pairs stores) : ∀ s ∈ stores, s.op = .stloc := by
  induction h with
  | nil => simp
  | skip _ ih => exact ih
  | store _ _ ih =>
    intro s hs
    rcases List.mem_cons.mp hs with rfl | hs
    · rfl
    · exact ih s hs

theorem spill_stores (h : b.spill r target reuse = .ok (stores, b')) :
    (∀ s ∈ stores, s.op = .stloc) ∧ b'.trees = [] := by
  obtain ⟨_, _, _, _, -, -, hmoves, -, rfl⟩ := spill_ok h
  exact ⟨hmoves.op_eq, rfl⟩

end Storing

/-! ## Steps -/

section Steps

variable {v : Variables} {S : Nat → Prop} {b b' : Builder} {r : Record}
variable {n : Node} {op : Op} {locals arguments : Nat}

/-- A node becomes a value or a root, behind stores of the trees. -/
theorem place_gains (hS : ∀ t ∈ b.trees, S t.offset) (hext : b'.vars.Extends v)
    (h : b.place r n = .ok b') :
    ∃ new, b.Adds b' new ∧
      Gains v S (n.nodes + nodesOf b.trees) (nodesOf new + nodesOf b'.trees) ∧
      (∀ k ∈ new, k = n ∨ k.op = .stloc) ∧ (producesValue r.op n = false → b'.trees = []) := by
  rcases place_ok h with ⟨hv, rfl⟩ | ⟨-, -, b1, hf, rfl⟩
  · refine ⟨[], .of_blocks_eq rfl rfl, by simpa using Gains.refl _, by simp, by simp [hv]⟩
  · refine ⟨_, (flush_adds hf).trans (.addRoots b1 [n]), ?_, ?_, ?_⟩
    · obtain ⟨vars, rfl, hsize, hgrow⟩ := flush_ok hf
      have hids : ∀ i ∈ List.range' b.vars.size b.trees.reverse.length,
          ∃ j, v.role i = some (.synthetic, j) := by
        intro i hi
        rw [List.length_reverse] at hi
        obtain ⟨hle, hlt⟩ := List.mem_range'_1.mp hi
        obtain ⟨j, hj⟩ := hgrow.synthetic i hle (by omega)
        have hrole := hext.role i (by simp only [root]; omega)
        exact ⟨j, hrole.trans hj⟩
      have hstores := flushStores_gains hids (fun t ht => hS t (List.mem_reverse.mp ht))
      rw [nodesOf_reverse] at hstores
      rw [nodesOf_append, nodesOf_cons, nodesOf_nil]
      convert hstores.add_left n.nodes using 1
      simp only [root, nodesOf_nil]
      abel
    · intro k hk
      rcases List.mem_append.mp hk with hk | hk
      · exact .inr (op_flushStores k hk)
      · exact .inl (List.mem_singleton.mp hk)
    · intro _
      obtain ⟨vars, rfl, -, -⟩ := flush_ok hf
      rfl

/-- In front of the next block the trees are stored. -/
theorem fallThrough_gains (hS : S r.offset) (hs : b.Separated) (hext : b'.vars.Extends v)
    (h : b.fallThrough r = .ok b') :
    ∃ new, b.Adds b' new ∧ Gains v S (nodesOf b.trees) (nodesOf new + nodesOf b'.trees) ∧
      (∀ k ∈ new, k.op = .stloc) ∧ (b.FallsInto r → b'.trees = []) := by
  rcases fallThrough_ok h with ⟨-, stores, b1, hsp, rfl⟩ | ⟨hno, rfl⟩
  · have htrees : (b1.addRoots stores).trees = [] := by
      rw [addRoots_eq]
      exact (spill_stores hsp).2
    have hext1 : b1.vars.Extends v := by
      rw [addRoots_eq] at hext
      exact hext
    refine ⟨_, (spill_adds hsp).trans (.addRoots b1 stores), ?_, ?_, fun _ => htrees⟩
    · rw [htrees]
      simpa using spill_gains hS hs (by simp [Reuses]) hext1 hsp
    · simpa using (spill_stores hsp).1
  · exact ⟨[], .of_blocks_eq rfl rfl, by simpa using Gains.refl _, by simp, fun h => absurd h hno⟩

/-- A branch stands behind the stores of the trees. -/
theorem branch_gains (hS : S r.offset) (hs : b.Separated) (hext : b'.vars.Extends v)
    (h : b.branch r n = .ok b') :
    ∃ stores, b.Adds b' (stores ++ [n]) ∧
      Gains v S (n.nodes + nodesOf b.trees) (nodesOf (stores ++ [n])) ∧
      (∀ k ∈ stores, k.op = .stloc) ∧ b'.trees = [] := by
  obtain ⟨target, stores, b1, more, b2, -, hsp, hm, rfl⟩ := branch_ok h
  obtain ⟨hs1, hw1⟩ := spill_separated hs (by simp [Reuses]) hsp
  have hext2 : b2.vars.Extends v := by
    simp only [clearStack, root, addRoots_eq] at hext
    exact hext
  have hmore : b1.vars.Extends b2.vars ∧ Gains v S 0 (nodesOf more) ∧ ∀ k ∈ more, k.op = .stloc := by
    rcases hm with ⟨-, -, hm⟩ | ⟨-, rfl, rfl⟩
    · obtain ⟨-, hw2⟩ := spill_separated (hs1.onTarget target) (reuses_lookup b1 target) hm
      exact ⟨hw2.vars,
        spill_gains hS (hs1.onTarget target) (reuses_lookup b1 target) hext2 hm,
        (spill_stores hm).1⟩
    · exact ⟨.refl _, .refl _, by simp⟩
  have hstores := spill_gains hS hs (by simp [Reuses]) (hmore.1.trans hext2) hsp
  refine ⟨stores ++ more, branch_adds hsp ?_ n, ?_, ?_, rfl⟩
  · rcases hm with ⟨-, -, hm⟩ | ⟨-, -, rfl⟩
    · exact .inl ⟨_, hm⟩
    · exact .inr rfl
  · have hall := hstores.trans (add_zero (nodesOf stores) ▸ hmore.2.1.add_left (nodesOf stores))
    simp only [nodesOf_append, nodesOf_cons, nodesOf_nil, add_zero]
    rw [add_comm n.nodes]
    exact hall.add_right n.nodes
  · intro k hk
    rcases List.mem_append.mp hk with hk | hk
    · exact (spill_stores hsp).1 k hk
    · exact hmore.2.2 k hk

theorem elementAccess?_of_isBranch (h : op.isBranch = true) : op.elementAccess? = none := by
  cases op with
  | ldelem | ldelemAny | stelem | stelemAny => simp [Op.isBranch, Op.flow] at h
  | _ => rfl

/-- What ends a block leaves no value. -/
theorem producesValue_of_endsBlock (h : op.endsBlock = true) (n : Node) :
    producesValue op n = false := by
  cases op with
  | ret | br | leave | throw => rfl
  | _ => simp [Op.endsBlock, Op.flow] at h

/-- The node of a jump refers to the block at its target. -/
theorem node_target {t : Nat} (hb : r.op.isBranch = true) (ht : r.target? = some t)
    (h : b.node r = .ok (n, b')) :
    n.op = r.op ∧ n.offset = r.offset ∧ ∃ k, b.blockAt? t = some k ∧ n.blockId? = some k := by
  obtain ⟨o, b1, _, _, ho, -, -, hmade, -⟩ := node_ok_plain (elementAccess?_of_isBranch hb) h
  have hoperand : r.operand = .ref (.target t) := by
    unfold Record.target? at ht
    split at ht
    · cases ht
      assumption
    · cases ht
  rcases operand_ok ho with ⟨-, href⟩ | ⟨i, hi, -⟩
  · rw [hoperand] at href
    obtain ⟨k, hk, rfl⟩ := href
    exact ⟨hmade.op, hmade.offset, k, hk, by simp [Node.blockId?, hmade.operand]⟩
  · rw [hoperand] at hi
    cases hi

/-- A node branches only where its record does. -/
theorem node_isBranch (h : b.node r = .ok (n, b')) : n.op.isBranch = r.op.isBranch := by
  cases he : r.op.elementAccess? with
  | none =>
    obtain ⟨_, _, _, _, -, -, -, hmade, -⟩ := node_ok_plain he h
    rw [hmade.op]
  | some access =>
    simp only [node, he] at h
    obtain ⟨_, _, _, _, -, -, -, hmade, -⟩ := elementNode_ok h
    rw [hmade.op]
    unfold Op.elementAccess? at he
    split at he <;> cases he <;> simp_all [Op.isBranch, Op.flow]

theorem node_trees {t : Node} (h : b.node r = .ok (n, b')) (ht : t ∈ b'.trees) : t ∈ b.trees := by
  have hstack : ∃ es, b.stackEntries = b'.stackEntries ++ es := by
    cases he : r.op.elementAccess? with
    | none =>
      obtain ⟨_, _, es, _, -, hstack, -⟩ := node_ok_plain he h
      exact ⟨es, hstack⟩
    | some access =>
      simp only [node, he] at h
      obtain ⟨es, _, _, _, hstack, -⟩ := elementNode_ok h
      exact ⟨es, hstack⟩
  obtain ⟨es, hstack⟩ := hstack
  refine mem_trees_iff.mp ?_
  rw [hstack]
  exact List.mem_append_left _ (mem_trees_iff.mpr ht)

structure Contributes (v : Variables) (S : Nat → Prop) (b : Builder) (r : Record) (b' : Builder)
    (new : List Node) : Prop where
  adds : b.Adds b' new
  nodes : ∃ own : Multiset Node, own.map stamp = ↑r.stamps ∧
    Gains v S (nodesOf b.trees + own) (nodesOf new + nodesOf b'.trees)
  jump : ∀ t, r.op.isBranch = true → r.target? = some t → ∃ stores n, new = stores ++ [n] ∧
    (∀ k ∈ stores, k.op.isBranch = false) ∧ n.op = r.op ∧ n.offset = r.offset ∧
    ∃ k, b.blockAt? t = some k ∧ n.blockId? = some k
  quiet : r.op.isBranch = false → ∀ n ∈ new, n.op.isBranch = false
  left : r.op.isBranch = true ∨ r.op.endsBlock = true ∨ b.FallsInto r → b'.trees = []

theorem isBranch_of_stloc (h : n.op = .stloc) : n.op.isBranch = false := by
  rw [h]
  rfl

/-- What a record that does not branch adds before control goes on. -/
theorem place_contributes {b1 b2 : Builder} (hs : b.Separated) (hd : b.Declares arguments locals)
    (hr : InScope arguments locals r) (hS : S r.offset) (htrees : ∀ t ∈ b.trees, S t.offset)
    (hext : b2.vars.Extends v) (hb : r.op.isBranch = false) (hn : b.node r = .ok (n, b1))
    (hp : b1.place r n = .ok b2) :
    ∃ (own : Multiset Node) (new : List Node), own.map stamp = ↑r.stamps ∧ b.Adds b2 new ∧
      Gains v S (nodesOf b.trees + own) (nodesOf new + nodesOf b2.trees) ∧
      (∀ k ∈ new, k.op.isBranch = false) ∧ (producesValue r.op n = false → b2.trees = []) := by
  obtain ⟨hs1, hw1, hmention⟩ := node_separated hs hd hr hn
  obtain ⟨-, hw2⟩ := place_separated hs1 hmention hp
  have hext0 := (hw1.trans hw2).vars.trans hext
  obtain ⟨own, hown, hnode⟩ := node_gains hS
    (fun id hid => isSynthetic_of_extends hext0 (hs.carried id hid).1) hn
  obtain ⟨new, hadds, hplaced, hops, hnil⟩ :=
    place_gains (fun t ht => htrees t (node_trees hn ht)) hext hp
  refine ⟨own, new, hown, (node_adds hn).trans hadds, hnode.trans hplaced, ?_, hnil⟩
  intro k hk
  rcases hops k hk with rfl | hop
  · exact (node_isBranch hn).trans hb
  · exact isBranch_of_stloc hop

/-- A step in the block of its record adds the nodes of the record to it. -/
theorem step_contributes (hs : b.Separated) (hd : b.Declares arguments locals)
    (hr : InScope arguments locals r) (hS : S r.offset)
    (htrees : ∀ t ∈ (b.enterAt r.offset).trees, S t.offset) (hext : b'.vars.Extends v)
    (h : b.step r = .ok b') : ∃ new, Contributes v S (b.enterAt r.offset) r b' new := by
  obtain ⟨n, b1, hn, hrest⟩ := step_ok h
  have hs0 := hs.enterAt r.offset
  have hw0 := b.enterAt_widens r.offset
  have hd0 := hw0.declares ⟨arguments_enterAt b _, locals_enterAt b _⟩ hd
  obtain ⟨hs1, hw1, hmention⟩ := node_separated hs0 hd0 hr hn
  rcases hrest with ⟨hb, hbranch⟩ | ⟨hb, b2, hp, hend⟩
  · obtain ⟨-, hw2⟩ := branch_separated hs1 hbranch
    have hext0 := (hw1.trans hw2).vars.trans hext
    obtain ⟨own, hown, hnode⟩ := node_gains hS
      (fun id hid => isSynthetic_of_extends hext0 (hs0.carried id hid).1) hn
    obtain ⟨stores, hadds, hstores, hops, hnil⟩ := branch_gains hS hs1 hext hbranch
    refine ⟨stores ++ [n], ?_, ⟨own, hown, ?_⟩, ?_, by simp [hb], fun _ => hnil⟩
    · exact (node_adds hn).trans hadds
    · rw [hnil]
      simpa using hnode.trans hstores
    · intro t _ ht
      obtain ⟨hop, hoff, htarget⟩ := node_target hb ht hn
      exact ⟨stores, n, rfl, fun k hk => isBranch_of_stloc (hops k hk), hop, hoff, htarget⟩
  · rcases hend with ⟨hends, rfl⟩ | ⟨hends, hf⟩
    · have hext2 : b2.vars.Extends v := hext
      obtain ⟨own, new, hown, hadds, hall, hops, hnil⟩ :=
        place_contributes hs0 hd0 hr hS htrees hext2 hb hn hp
      -- nothing is on the stack that would be dropped
      have hnone := hnil (producesValue_of_endsBlock hends n)
      refine ⟨new, ?_, ⟨own, hown, ?_⟩, by simp [hb], fun _ => hops, fun _ => rfl⟩
      · exact ⟨hadds.current, hadds.size, hadds.roots⟩
      · rw [hnone] at hall
        exact hall
    · obtain ⟨hs2, hw2⟩ := place_separated hs1 hmention hp
      obtain ⟨-, hw3⟩ := fallThrough_separated hs2 hf
      obtain ⟨own, new, hown, hadds, hall, hops, -⟩ :=
        place_contributes hs0 hd0 hr hS htrees (hw3.vars.trans hext) hb hn hp
      obtain ⟨more, hadds', hmore, hops', hnil⟩ := fallThrough_gains hS hs2 hext hf
      refine ⟨new ++ more, hadds.trans hadds', ⟨own, hown, ?_⟩, by simp [hb], ?_, ?_⟩
      · have hboth := hall.trans (hmore.add_left (nodesOf new))
        rwa [← add_assoc, ← nodesOf_append] at hboth
      · intro _ k hk
        rcases List.mem_append.mp hk with hk | hk
        · exact hops k hk
        · exact isBranch_of_stloc (hops' k hk)
      · rintro (hyes | hyes | hyes)
        · simp [hb] at hyes
        · simp [hends] at hyes
        · exact hnil ((((node_keeps hn).trans (place_keeps hp)).fallsInto_iff r).mpr hyes)

end Steps

end Builder

end SpuCompiler.Trees
