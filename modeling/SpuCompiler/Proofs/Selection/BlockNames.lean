import SpuCompiler.Proofs.Selection.RoutineCode

/-!
Names of blocks and constants. A routine has a block for each offset at which trees start, and an
object for each wide constant; their names begin with that of the routine. Different blocks and
different constants have different names, so a routine whose names are free in the arena gets all
of its objects (`allocateBlocks_free`).
-/

namespace SpuCompiler.Text

/-! ## Hexadecimal digits -/

def digitValue (c : Char) : Nat := if c.toNat < 97 then c.toNat - 48 else c.toNat - 87

def digitsValue (cs : List Char) : Nat := cs.foldl (fun value c => 16 * value + digitValue c) 0

theorem digitValue_digitChar {d : Nat} (h : d < 16) : digitValue d.digitChar = d := by
  have hall : ∀ e ∈ List.range 16, digitValue e.digitChar = e := by decide
  exact hall d (List.mem_range.mpr h)

theorem digitsValue_toDigits (n : Nat) : digitsValue (Nat.toDigits 16 n) = n := by
  induction n using Nat.strong_induction_on with
  | _ n ih =>
    rw [Nat.toDigits_eq_if (by decide)]
    split
    · rename_i hn
      simp [digitsValue, digitValue_digitChar hn]
    · have hhigh : digitsValue (Nat.toDigits 16 (n / 16)) = n / 16 := ih _ (by omega)
      have hlow : digitValue (n % 16).digitChar = n % 16 := digitValue_digitChar (by omega)
      unfold digitsValue at hhigh ⊢
      rw [List.foldl_append, hhigh, List.foldl_cons, List.foldl_nil, hlow]
      omega

/-- Leading zeros do not count. -/
theorem digitsValue_hexPad (width n : Nat) : digitsValue (hexPad width n).toList = n := by
  have hzeros (k : Nat) (cs : List Char) : digitsValue (List.replicate k '0' ++ cs) = digitsValue cs := by
    induction k with
    | zero => rfl
    | succ k ih =>
      rw [List.replicate_succ, List.cons_append, ← ih]
      rfl
  rw [hexPad, String.toList_ofList, hzeros, digitsValue_toDigits]

theorem codeLabel_injective {m n : Nat} (h : codeLabel m = codeLabel n) : m = n := by
  have hlists := congrArg String.toList h
  rw [codeLabel, codeLabel, String.toList_append, String.toList_append] at hlists
  have hdigits := congrArg digitsValue (List.append_cancel_left hlists)
  rwa [digitsValue_hexPad, digitsValue_hexPad] at hdigits

end SpuCompiler.Text

namespace SpuCompiler.Selection

open Trees Objects

variable {name routine : String} {r : Routine} {a : Arena} {names : List String}

/-! ## Names that begin with the name of a routine -/

/-- Blocks and constants of a routine have names that begin with its own. -/
def Reserved (routine name : String) : Prop := (routine ++ "#").toList <+: name.toList

instance (routine name : String) : Decidable (Reserved routine name) :=
  inferInstanceAs (Decidable (_ <+: _))

theorem reserved_append (routine : String) {mark : String} (h : ['#'] <+: mark.toList) :
    Reserved routine (routine ++ mark) := by
  unfold Reserved
  rw [String.toList_append, String.toList_append]
  exact (List.prefix_append_right_inj _).mpr h

theorem Reserved.append (h : Reserved routine name) (rest : String) :
    Reserved routine (name ++ rest) := by
  unfold Reserved
  rw [String.toList_append (s := name)]
  exact h.trans (List.prefix_append _ _)

theorem reserved_of_mem_blockNames (h : name ∈ blockNames r) : Reserved r.name name := by
  simp only [blockNames, List.cons_append, List.mem_cons, List.mem_append, List.mem_map,
    List.not_mem_nil, or_false] at h
  rcases h with rfl | ⟨b, -, rfl⟩ | rfl
  · exact reserved_append r.name (by decide)
  · exact (reserved_append r.name (by decide)).append _
  · exact reserved_append r.name (by decide)

def constantName (routine : String) (k : Nat) : String := s!"{routine}#const{k}"

theorem reserved_constantName (routine : String) (k : Nat) :
    Reserved routine (constantName routine k) :=
  (reserved_append routine (by decide)).append _

theorem constantName_injective {j k : Nat} (h : constantName routine j = constantName routine k) :
    j = k := by
  have hlists := congrArg String.toList h
  simp only [constantName, String.toList_append] at hlists
  have hdigits := congrArg (fun cs => Nat.ofDigitChars 10 cs 0) (List.append_cancel_left hlists)
  simpa [Nat.toString_eq_ofList_toDigits] using hdigits

/-- What the names of the blocks of a routine add to its own. -/
def blockMarks (r : Routine) : List String :=
  "#prologue" :: (r.blocks.toList.map fun b => "#" ++ Text.codeLabel b.offset) ++ ["#epilogue"]

theorem blockNames_eq (r : Routine) : blockNames r = (blockMarks r).map (r.name ++ ·) := by
  simp only [blockNames, blockMarks, List.map_append, List.map_cons, List.map_map, List.map_nil]
  congr 3
  funext b
  exact String.append_assoc ..

theorem append_left_cancel {s t u : String} (h : s ++ t = s ++ u) : t = u := by
  have hlists := congrArg String.toList h
  rw [String.toList_append, String.toList_append] at hlists
  exact String.toList_inj.mp (List.append_cancel_left hlists)

/-- The letter behind the mark tells blocks of trees from the prologue and the epilogue. -/
theorem label_letter (offset : Nat) :
    ("#" ++ Text.codeLabel offset).toList[1]? = some 'I' := by
  rw [Text.codeLabel, ← String.append_assoc, String.toList_append]
  rfl

theorem blockNames_nodup (h : (r.blocks.toList.map Block.offset).Nodup) : (blockNames r).Nodup := by
  have hletter {mark : String} (hmark : mark.toList[1]? ≠ some 'I') :
      mark ∉ r.blocks.toList.map fun b => "#" ++ Text.codeLabel b.offset := by
    intro hmem
    obtain ⟨b, -, rfl⟩ := List.mem_map.mp hmem
    exact hmark (label_letter b.offset)
  have hlabels : (r.blocks.toList.map fun b => "#" ++ Text.codeLabel b.offset).Nodup := by
    have hmap : (r.blocks.toList.map fun b => "#" ++ Text.codeLabel b.offset) =
        (r.blocks.toList.map Block.offset).map fun offset => "#" ++ Text.codeLabel offset := by
      rw [List.map_map]
      rfl
    rw [hmap]
    exact h.map fun _ _ heq => Text.codeLabel_injective (append_left_cancel heq)
  rw [blockNames_eq]
  refine List.Nodup.map (fun _ _ heq => append_left_cancel heq) ?_
  rw [blockMarks, List.cons_append, List.nodup_cons, List.nodup_append]
  refine ⟨?_, hlabels, List.nodup_singleton _, ?_⟩
  · rw [List.mem_append]
    rintro (hmem | hmem)
    · exact hletter (by decide) hmem
    · exact absurd hmem (by decide)
  · rintro mark hmem _ hlast rfl
    rw [List.mem_singleton.mp hlast] at hmem
    exact hletter (by decide) hmem

theorem constantName_not_mem_blockNames (r : Routine) (k : Nat) :
    constantName r.name k ∉ blockNames r := by
  rw [blockNames_eq]
  intro hmem
  obtain ⟨mark, hmark, heq⟩ := List.mem_map.mp hmem
  have hsuffix : mark = "#const" ++ toString k := by
    apply append_left_cancel (s := r.name)
    rw [← String.append_assoc]
    exact heq
  have hletter : mark.toList[1]? = some 'c' := by
    rw [hsuffix, String.toList_append]
    rfl
  simp only [blockMarks, List.cons_append, List.mem_cons, List.mem_append, List.mem_map,
    List.not_mem_nil, or_false] at hmark
  rcases hmark with rfl | ⟨b, -, rfl⟩ | rfl
  · exact absurd hletter (by decide)
  · rw [label_letter] at hletter
    exact absurd hletter (by decide)
  · exact absurd hletter (by decide)

/-! ## Free names -/

theorem addBlock_free (routine : ObjectId) (h : a.find? name = none) :
    ∃ id b, Layout.Runs (addBlock routine name) a id b ∧
      ∀ other, other ≠ name → b.find? other = a.find? other := by
  have hadd : a.addBlock routine name = .ok (a.size, a.push (blockObject routine name)) := by
    simp [Arena.addBlock, Arena.insert, h, blockObject]
  refine ⟨_, _, addBlock_runs.mpr hadd, fun other hother => ?_⟩
  rw [Arena.find?_push]
  exact if_neg hother

theorem addBlocks_free (routine : ObjectId) (hnodup : names.Nodup)
    (h : ∀ name ∈ names, a.find? name = none) :
    ∃ ids b, Layout.Runs (addBlocks routine names) a ids b ∧
      ∀ other, other ∉ names → b.find? other = a.find? other := by
  induction names generalizing a with
  | nil => exact ⟨[], a, Layout.runs_pure.mpr ⟨rfl, rfl⟩, fun _ _ => rfl⟩
  | cons name names ih =>
    obtain ⟨hname, hnodup⟩ := List.nodup_cons.mp hnodup
    obtain ⟨id, b, hb, hfind⟩ := addBlock_free routine (h name (by simp))
    have hrest : ∀ other ∈ names, b.find? other = none := by
      intro other hother
      rw [hfind other (fun heq => hname (heq ▸ hother)), h other (by simp [hother])]
    obtain ⟨ids, c, hc, hfind'⟩ := ih hnodup hrest
    refine ⟨id :: ids, c, ?_, fun other hother => ?_⟩
    · simp only [addBlocks, Layout.runs_bind, Layout.runs_pure]
      exact ⟨id, b, hb, ids, c, hc, rfl, rfl⟩
    · rw [List.mem_cons, not_or] at hother
      rw [hfind' other hother.2, hfind other hother.1]

theorem addBlocks_append {b : Arena} {routine : ObjectId} {names' : List String}
    {ids : List ObjectId} (h : Layout.Runs (addBlocks routine (names ++ names')) a ids b) :
    ∃ ids₁ ids₂ c, Layout.Runs (addBlocks routine names) a ids₁ c ∧
      Layout.Runs (addBlocks routine names') c ids₂ b := by
  induction names generalizing a ids with
  | nil => exact ⟨[], ids, a, Layout.runs_pure.mpr ⟨rfl, rfl⟩, h⟩
  | cons name names ih =>
    simp only [List.cons_append, addBlocks, Layout.runs_bind, Layout.runs_pure] at h ⊢
    obtain ⟨id, c, hc, ids', _, hb, rfl, rfl⟩ := h
    obtain ⟨ids₁, ids₂, d, h₁, h₂⟩ := ih hb
    exact ⟨id :: ids₁, ids₂, d, ⟨id, c, hc, ids₁, d, h₁, rfl, rfl⟩, h₂⟩

/-- A routine whose names are free gets its blocks, and no other name changes. -/
theorem allocateBlocks_free (routine : ObjectId) (hnodup : (blockNames r).Nodup)
    (h : ∀ name ∈ blockNames r, a.find? name = none) :
    ∃ objects b, Layout.Runs (allocateBlocks r routine) a objects b ∧
      ∀ other, other ∉ blockNames r → b.find? other = a.find? other := by
  obtain ⟨ids, b, hb, hfind⟩ := addBlocks_free routine hnodup h
  obtain ⟨_, _, a₂, hfirst, hlast⟩ := addBlocks_append hb
  simp only [addBlocks, Layout.runs_bind, Layout.runs_pure] at hfirst hlast
  obtain ⟨prologue, a₁, h₁, body, a₃, h₂, -, rfl⟩ := hfirst
  obtain ⟨epilogue, a₄, h₃, _, _, ⟨-, rfl⟩, -, rfl⟩ := hlast
  refine ⟨⟨prologue, body.toArray, epilogue⟩, a₄, ?_, hfind⟩
  simp only [allocateBlocks, Layout.runs_bind, Layout.runs_pure]
  exact ⟨prologue, a₁, h₁, body, a₃, h₂, epilogue, a₄, h₃, rfl, rfl⟩

end SpuCompiler.Selection
