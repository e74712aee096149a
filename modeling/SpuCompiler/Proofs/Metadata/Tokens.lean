import Mathlib.Tactic
import SpuCompiler.Metadata.Token

/-!
Tokens never alias. The row of a new token counts the tokens of its kind in the one table for all
kinds. While there are fewer entities of a kind than rows, the tokens of that kind are those with
the rows from one on, however the kinds are mixed; so a new token is fresh, and the older ones keep
their entities.
-/

namespace SpuCompiler.Metadata

def countKind (base : Nat) (es : List Entity) : Nat := es.countP (·.base == base)

/-- No kind has as many entities as a token has rows. -/
def RowsLeft (es : List Entity) : Prop := ∀ base, countKind base es < 2 ^ 24

/-- The token stands for the entity, and for nothing of another kind. -/
structure Resolver.Shows (r : Resolver) (token : Nat) (e : Entity) : Prop where
  field : r.field token = e.field?
  method : r.method token = e.method?
  type : r.type token = e.type?
  string : r.string token = e.string?

theorem countKind_cons (base : Nat) (e : Entity) (es : List Entity) :
    countKind base (e :: es) = countKind base es + if e.base = base then 1 else 0 := by
  simp [countKind, List.countP_cons]

namespace RowsLeft

variable {e : Entity} {es es' : List Entity}

theorem sublist (h : RowsLeft es) (hsub : es'.Sublist es) : RowsLeft es' :=
  fun base => hsub.countP_le.trans_lt (h base)

theorem tail (h : RowsLeft (e :: es)) : RowsLeft es := h.sublist (List.sublist_cons_self e es)

theorem reverse (h : RowsLeft es) : RowsLeft es.reverse := by
  intro base
  rw [countKind, List.countP_reverse]
  exact h base

theorem row_lt (h : RowsLeft (e :: es)) : countKind e.base es + 1 < 2 ^ 24 := by
  simpa [countKind_cons] using h e.base

end RowsLeft

/-! ## Bases and rows -/

namespace Entity

theorem base_eq_mul (e : Entity) : ∃ k < 256, e.base = 2 ^ 24 * k := by
  cases e with
  | field => exact ⟨4, by decide, rfl⟩
  | method => exact ⟨6, by decide, rfl⟩
  | type => exact ⟨2, by decide, rfl⟩
  | string => exact ⟨0x70, by decide, rfl⟩

variable (e : Entity) {row : Nat} (h : row < 2 ^ 24)

include h

theorem base_or : e.base ||| row = e.base + row := by
  obtain ⟨k, -, hk⟩ := e.base_eq_mul
  rw [hk, Nat.two_pow_add_eq_or_of_lt h]

/-- The first byte of a token gives the kind back. -/
theorem and_firstByte : (e.base + row) &&& 0xFF000000 = e.base := by
  obtain ⟨k, hlt, hk⟩ := e.base_eq_mul
  have hquotient : (2 ^ 24 * k + row) / 2 ^ 24 = k := by omega
  have hbyte : k &&& 0xFF = k := by
    rw [Nat.and_two_pow_sub_one_eq_mod k 8, Nat.mod_eq_of_lt hlt]
  have hhigh : ((2 ^ 24 * k + row) &&& 0xFF000000) / 2 ^ 24 = k := by
    rw [Nat.and_div_two_pow, hquotient]
    exact hbyte
  have hlow : ((2 ^ 24 * k + row) &&& 0xFF000000) % 2 ^ 24 = 0 := by
    rw [Nat.and_mod_two_pow]
    exact Nat.and_zero _
  rw [hk, ← Nat.div_add_mod ((2 ^ 24 * k + row) &&& 0xFF000000) (2 ^ 24), hhigh, hlow, Nat.add_zero]

end Entity

/-! ## What a table holds -/

/-- The entries for entities that were added one after the other, the latest first: rows of a kind
count from one on. -/
def numbered : List Entity → List (Nat × Entity)
  | [] => []
  | e :: es => (e.base + (countKind e.base es + 1), e) :: numbered es

theorem exists_of_mem_numbered {es : List Entity} {entry : Nat × Entity} (h : entry ∈ numbered es) :
    ∃ row ≤ countKind entry.2.base es, entry.1 = entry.2.base + row := by
  induction es with
  | nil => cases h
  | cons e es ih =>
    rw [countKind_cons]
    rcases List.mem_cons.mp h with rfl | h
    · exact ⟨countKind e.base es + 1, by simp, rfl⟩
    · obtain ⟨row, hle, heq⟩ := ih h
      exact ⟨row, by omega, heq⟩

theorem nodup_numbered {es : List Entity} (h : RowsLeft es) :
    ((numbered es).map Prod.fst).Nodup := by
  induction es with
  | nil => exact List.nodup_nil
  | cons e es ih =>
    refine List.nodup_cons.mpr ⟨?_, ih h.tail⟩
    intro hmem
    obtain ⟨entry, hentry, htoken⟩ := List.mem_map.mp hmem
    obtain ⟨row, hle, heq⟩ := exists_of_mem_numbered hentry
    -- equal tokens have the same first byte, so the rows are of one kind
    have hbase : entry.2.base = e.base := by
      rw [← entry.2.and_firstByte (hle.trans_lt (h.tail _)), ← heq, htoken,
        e.and_firstByte h.row_lt]
    rw [hbase] at heq hle
    omega

/-- The keys with a first byte are as many as the entities of that kind. -/
theorem countP_numbered {es : List Entity} (h : RowsLeft es) (base : Nat) :
    (numbered es).countP (fun entry => entry.1 &&& 0xFF000000 == base) = countKind base es := by
  induction es with
  | nil => rfl
  | cons e es ih =>
    rw [numbered, List.countP_cons, ih h.tail, countKind_cons, e.and_firstByte h.row_lt]
    simp

namespace TokenTable

variable {t : TokenTable} {seen es : List Entity}

/-- One step: the next row is handed out. -/
theorem add_numbered (ht : t.entries = numbered seen) {e : Entity} (h : RowsLeft (e :: seen)) :
    (t.add e).1 = e.base + (countKind e.base seen + 1) ∧
      (t.add e).2.entries = numbered (e :: seen) := by
  have hrows : t.rows e.base = countKind e.base seen := by
    rw [rows, ht, countP_numbered h.tail]
  have htoken : (t.add e).1 = e.base + (countKind e.base seen + 1) := by
    rw [← e.base_or h.row_lt, ← hrows]
    rfl
  refine ⟨htoken, ?_⟩
  change ((t.add e).1, e) :: t.entries = _
  rw [htoken, ht]
  rfl

/-- A whole run: each token has the row behind those of its kind before it. -/
theorem addAll_numbered (ht : t.entries = numbered seen) (h : RowsLeft (es.reverse ++ seen)) :
    (t.addAll es).2.entries = numbered (es.reverse ++ seen) ∧
      ∀ (i : Nat) e token, es[i]? = some e → (t.addAll es).1[i]? = some token →
        token = e.base + (countKind e.base seen + countKind e.base (es.take i) + 1) := by
  induction es generalizing t seen with
  | nil =>
    refine ⟨ht, fun i e token he => ?_⟩
    cases he
  | cons e es ih =>
    rw [List.reverse_cons, List.append_assoc] at h ⊢
    obtain ⟨htoken, hentries⟩ := add_numbered ht (h.sublist (List.sublist_append_right _ _))
    obtain ⟨hfinal, htokens⟩ := ih hentries h
    refine ⟨hfinal, ?_⟩
    rintro (_ | i) e' token he' hat
    · cases he'
      cases hat
      exact htoken
    · rw [htokens i e' token he' hat, List.take_succ_cons, countKind_cons, countKind_cons]
      omega

/-- Every token is entered with its entity, before those that were there. -/
theorem entries_addAll (t : TokenTable) (es : List Entity) :
    (t.addAll es).2.entries = ((t.addAll es).1.zip es).reverse ++ t.entries := by
  induction es generalizing t with
  | nil => rfl
  | cons e es ih =>
    refine (ih (t.add e).2).trans ?_
    simp [addAll, add]

theorem length_addAll (t : TokenTable) (es : List Entity) : (t.addAll es).1.length = es.length := by
  induction es generalizing t with
  | nil => rfl
  | cons e es ih => exact congrArg Nat.succ (ih _)

theorem lookup_of_mem {entries : List (Nat × Entity)} (hnodup : (entries.map Prod.fst).Nodup)
    {token : Nat} {e : Entity} (h : (token, e) ∈ entries) : entries.lookup token = some e := by
  induction entries with
  | nil => cases h
  | cons entry entries ih =>
    rw [List.map_cons, List.nodup_cons] at hnodup
    rcases List.mem_cons.mp h with rfl | h
    · exact List.lookup_cons_self
    · have hne : (token == entry.1) = false := by
        rw [beq_eq_false_iff_ne]
        intro heq
        exact hnodup.1 (List.mem_map.mpr ⟨(token, e), h, heq⟩)
      rw [List.lookup_cons, hne]
      exact ih hnodup.2 h

theorem shows_of_entity? {token : Nat} {e : Entity} (h : t.entity? token = some e) :
    t.resolver.Shows token e := by
  constructor <;> simp [resolver, h]

end TokenTable

/-- Tokens never alias. With fewer than 2^24 entities of each kind, the tokens handed out are
distinct, the n-th entity of a kind gets the n-th token behind the base of the kind, and after any
further additions each token still stands for its entity and for nothing else. -/
theorem tokens_never_alias (es more : List Entity) (h : RowsLeft (es ++ more)) :
    let tokens := (({} : TokenTable).addAll es).1
    let later := ((({} : TokenTable).addAll es).2.addAll more).2
    tokens.length = es.length ∧ tokens.Nodup ∧
      ∀ (i : Nat) e token, es[i]? = some e → tokens[i]? = some token →
        token = e.base + (countKind e.base (es.take i) + 1) ∧ later.resolver.Shows token e := by
  intro tokens later
  have hrows : RowsLeft (more.reverse ++ (es.reverse ++ [])) := by
    simpa only [List.reverse_append, List.append_nil] using h.reverse
  have hfirst : RowsLeft (es.reverse ++ []) := hrows.sublist (List.sublist_append_right _ _)
  have hempty : ({} : TokenTable).entries = numbered [] := rfl
  obtain ⟨hentries, htokens⟩ := TokenTable.addAll_numbered hempty hfirst
  have hlater : later.entries = numbered (more.reverse ++ (es.reverse ++ [])) :=
    (TokenTable.addAll_numbered hentries hrows).1
  have hlength : tokens.length = es.length := TokenTable.length_addAll {} es
  have hzip := TokenTable.entries_addAll {} es
  refine ⟨hlength, ?_, ?_⟩
  · have hnodup := nodup_numbered hfirst
    rw [← hentries, hzip, List.append_nil, List.map_reverse, List.nodup_reverse,
      List.map_fst_zip hlength.le] at hnodup
    exact hnodup
  · intro i e token he htoken
    refine ⟨?_, ?_⟩
    · rw [htokens i e token he htoken]
      simp [countKind]
    · have hmem : (token, e) ∈ later.entries := by
        have hadded : (token, e) ∈ tokens.zip es :=
          List.mem_of_getElem? (List.getElem?_zip_eq_some.mpr ⟨htoken, he⟩)
        rw [TokenTable.entries_addAll, hzip, List.append_nil, List.mem_append]
        exact .inr (List.mem_reverse.mpr hadded)
      refine TokenTable.shows_of_entity? (TokenTable.lookup_of_mem ?_ hmem)
      rw [hlater]
      exact nodup_numbered hrows

def mixedEntities : List Entity :=
  [.method { name := "read" }, .field (.static "Clock" "Time" .i4), .method { name := "write" },
    .string "ready"]

def laterEntities : List Entity := [.method { name := "reset" }, .type .r8]

/-- The second method has the second row, and keeps it when there is a third one. -/
theorem mixedEntities_never_alias :
    RowsLeft (mixedEntities ++ laterEntities) ∧
      (({} : TokenTable).addAll mixedEntities).1 =
        [0x06000001, 0x04000001, 0x06000002, 0x70000001] ∧
      ((({} : TokenTable).addAll mixedEntities).2.addAll laterEntities).2.resolver.Shows 0x06000002
        (.method { name := "write" }) := by
  have hrows : RowsLeft (mixedEntities ++ laterEntities) :=
    fun base => List.countP_le_length.trans_lt (by decide)
  obtain ⟨-, -, htokens⟩ := tokens_never_alias mixedEntities laterEntities hrows
  exact ⟨hrows, rfl, (htokens 2 (.method { name := "write" }) 0x06000002 rfl rfl).2⟩

end SpuCompiler.Metadata
