import Mathlib.Data.List.Basic
import Mathlib.Data.List.TakeDrop
import Mathlib.Data.List.TakeWhile
import Mathlib.Tactic.ByContra
import Mathlib.Tactic.Tauto
import SpuCompiler.Bytecode.Source

/-!
Lines of assembly text. A line with an argument is made of blanks, a word, blanks, the argument,
blanks and a comment, and it is read as the word and the argument. So the argument of a line can
be replaced, and the rest of the line stays as it is.
-/

namespace SpuCompiler.Text

/-! ## Lines -/

theorem lines_eq_splitOn (cs : List Char) : lines cs = cs.splitOn '\n' := by
  induction cs with
  | nil => rfl
  | cons c cs ih =>
    have hcons : lines (c :: cs) =
        if c = '\n' then [] :: lines cs else (c :: (lines cs).headD []) :: (lines cs).tail := rfl
    obtain ⟨first, rest, hrest⟩ := List.exists_cons_of_ne_nil (List.splitOn_ne_nil '\n' cs)
    rw [hcons, ih, hrest, List.splitOn_cons_eq_if_modifyHead, hrest]
    simp

theorem newline_not_mem_lines (cs : List Char) : ∀ line ∈ lines cs, '\n' ∉ line := by
  rw [lines_eq_splitOn]
  induction cs with
  | nil => simp
  | cons c cs ih =>
    obtain ⟨first, rest, hrest⟩ := List.exists_cons_of_ne_nil (List.splitOn_ne_nil '\n' cs)
    rw [List.splitOn_cons_eq_if_modifyHead, hrest]
    rw [hrest] at ih
    grind [List.modifyHead_cons]

/-- Lines that are joined by line feeds are found again. -/
theorem lines_intercalate {ls : List (List Char)} (hne : ls ≠ []) (h : ∀ line ∈ ls, '\n' ∉ line) :
    lines (List.intercalate ['\n'] ls) = ls := by
  rw [lines_eq_splitOn, List.splitOn_intercalate '\n' h hne]

/-! ## Blanks -/

/-- What trimming takes away. -/
theorem exists_trim (cs : List Char) : ∃ lead trail, cs = lead ++ trim cs ++ trail ∧
    (∀ c ∈ lead, isBlank c) ∧ ∀ c ∈ trail, isBlank c := by
  obtain ⟨rest, hrest⟩ : ∃ rest, cs.dropWhile isBlank = rest := ⟨_, rfl⟩
  refine ⟨cs.takeWhile isBlank, (rest.reverse.takeWhile isBlank).reverse, ?_, ?_, ?_⟩
  · have hback : rest = trim cs ++ (rest.reverse.takeWhile isBlank).reverse := by
      rw [trim, hrest, ← List.reverse_append, List.takeWhile_append_dropWhile, List.reverse_reverse]
    rw [List.append_assoc, ← hback, ← hrest, List.takeWhile_append_dropWhile]
  · exact fun c hc => List.mem_takeWhile_imp hc
  · exact fun c hc => List.mem_takeWhile_imp (List.mem_reverse.mp hc)

theorem dropWhile_blanks {lead cs : List Char} (hlead : ∀ c ∈ lead, isBlank c)
    (hcs : ∀ c ∈ cs.head?, isBlank c = false) : (lead ++ cs).dropWhile isBlank = cs := by
  rw [List.dropWhile_append_of_pos hlead]
  cases cs with
  | nil => rfl
  | cons c cs => exact List.dropWhile_cons_of_neg (by simp [hcs c rfl])

theorem trim_append {lead cs trail : List Char} (hlead : ∀ c ∈ lead, isBlank c)
    (htrail : ∀ c ∈ trail, isBlank c) (hne : cs ≠ []) (hfirst : ∀ c ∈ cs.head?, isBlank c = false)
    (hlast : ∀ c ∈ cs.getLast?, isBlank c = false) : trim (lead ++ cs ++ trail) = cs := by
  have hfront : (lead ++ (cs ++ trail)).dropWhile isBlank = cs ++ trail := by
    refine dropWhile_blanks hlead ?_
    rw [List.head?_append_of_ne_nil _ hne]
    exact hfirst
  have hback : (trail.reverse ++ cs.reverse).dropWhile isBlank = cs.reverse := by
    refine dropWhile_blanks (fun c hc => htrail c (List.mem_reverse.mp hc)) ?_
    rw [List.head?_reverse]
    exact hlast
  rw [trim, List.append_assoc, hfront, List.reverse_append, hback, List.reverse_reverse]

end SpuCompiler.Text

namespace SpuCompiler.Bytecode.Statement

open Text

variable {c : Char} {cs text lead word gap argument rest : List Char}

/-! ## Comments -/

/-- The character cannot start a comment. -/
def isQuiet (c : Char) : Bool := c ≠ '#' && c ≠ '/'

theorem dropComment_append (h : ∀ c ∈ cs, isQuiet c) (rest : List Char) :
    dropComment (cs ++ rest) = cs ++ dropComment rest := by
  induction cs with
  | nil => rfl
  | cons c cs ih =>
    have hc := h c List.mem_cons_self
    simp only [isQuiet, ne_eq, decide_not, Bool.and_eq_true, Bool.not_eq_eq_eq_not, Bool.not_true,
      decide_eq_false_iff_not] at hc
    rw [List.cons_append, dropComment]
    · rw [ih fun d hd => h d (List.mem_cons_of_mem _ hd), List.cons_append]
    · exact hc.1
    · exact fun _ hslash => absurd hslash hc.2

theorem exists_comment (cs : List Char) :
    ∃ comment, cs = dropComment cs ++ comment ∧ dropComment comment = [] := by
  fun_induction dropComment cs with
  | case1 => exact ⟨[], rfl, rfl⟩
  | case2 cs => exact ⟨'#' :: cs, rfl, rfl⟩
  | case3 cs => exact ⟨'/' :: '/' :: cs, rfl, rfl⟩
  | case4 c cs _ _ ih =>
    obtain ⟨comment, hcs, hcomment⟩ := ih
    exact ⟨comment, congrArg (c :: ·) hcs, hcomment⟩

theorem isQuiet_of {p : Char → Bool} (hash : p '#' = false) (slash : p '/' = false) (h : p c) :
    isQuiet c := by
  by_contra hc
  have hcases : c = '#' ∨ c = '/' := by
    by_contra hnone
    exact hc (by simp [isQuiet, not_or.mp hnone])
  rcases hcases with rfl | rfl
  · simp [hash] at h
  · simp [slash] at h

theorem isQuiet_of_isBlank (h : isBlank c) : isQuiet c :=
  isQuiet_of (by decide) (by decide) h

/-! ## Words -/

theorem isBlank_of_isWordChar (h : isWordChar c) : isBlank c = false := by
  by_contra hblank
  -- letters and digits by their ranges
  have hranges : c.isAlphanum = ((decide ('A'.val ≤ c.val ∧ c.val ≤ 'Z'.val) ||
    ('a'.val ≤ c.val && c.val ≤ 'z'.val)) || ('0'.val ≤ c.val && c.val ≤ '9'.val)) := rfl
  simp only [isWordChar, hranges, Bool.or_eq_true, Bool.and_eq_true, decide_eq_true_eq,
    UInt32.le_iff_toNat_le] at h
  simp only [isBlank, blankRanges, List.any_cons, List.any_nil, Bool.or_false, Bool.not_eq_false,
    Bool.or_eq_true, Bool.and_eq_true, decide_eq_true_eq, Char.toNat] at hblank
  rcases h with (h | rfl) | rfl
  · change ((65 ≤ c.val.toNat ∧ c.val.toNat ≤ 90 ∨ 97 ≤ c.val.toNat ∧ c.val.toNat ≤ 122) ∨
      48 ≤ c.val.toNat ∧ c.val.toNat ≤ 57) at h
    omega
  · simp at hblank
  · simp at hblank

theorem isQuiet_of_isWordChar (h : isWordChar c) : isQuiet c :=
  isQuiet_of (by decide) (by decide) h

theorem isWordChar_of_isWordStart (h : isWordStart c) : isWordChar c := by
  simp only [isWordStart, isWordChar, Char.isAlphanum, Bool.or_eq_true] at h ⊢
  tauto

/-- Letters, digits, underscores and points, of which the first, or the first after one point, is
a letter or an underscore. -/
def IsWord (word : List Char) : Prop :=
  ∃ c body, isWordStart c ∧ (∀ d ∈ body, isWordChar d) ∧
    (word = c :: body ∨ word = '.' :: c :: body)

theorem IsWord.isWordChar (h : IsWord word) : ∀ c ∈ word, isWordChar c := by
  obtain ⟨c, body, hc, hbody, hword⟩ := h
  have hchars : ∀ d ∈ c :: body, Statement.isWordChar d := by
    simpa using ⟨isWordChar_of_isWordStart hc, hbody⟩
  rcases hword with rfl | rfl
  · exact hchars
  · exact List.forall_mem_cons.mpr ⟨by decide, hchars⟩

theorem IsWord.ne_nil (h : IsWord word) : word ≠ [] := by
  obtain ⟨c, body, -, -, rfl | rfl⟩ := h <;> simp

/-- No comment starts before the argument of a line. -/
theorem IsWord.front_quiet (hword : IsWord word) (hlead : ∀ c ∈ lead, isBlank c)
    (hgap : ∀ c ∈ gap, isBlank c) : ∀ c ∈ lead ++ (word ++ gap), isQuiet c := by
  intro c hc
  rcases List.mem_append.mp hc with hc | hc
  · exact isQuiet_of_isBlank (hlead c hc)
  · rcases List.mem_append.mp hc with hc | hc
    · exact isQuiet_of_isWordChar (hword.isWordChar c hc)
    · exact isQuiet_of_isBlank (hgap c hc)

theorem splitWord_body (hc : isWordStart c) (body : List Char) :
    splitWord (c :: body) =
      some (c :: body.takeWhile isWordChar, body.dropWhile isWordChar) := by
  have hpoint : c ≠ '.' := by
    rintro rfl
    exact absurd hc (by decide)
  simp [splitWord, hpoint, hc, List.span_eq_takeWhile_dropWhile, isWordChar_of_isWordStart hc]

theorem splitWord_point (hc : isWordStart c) (body : List Char) :
    splitWord ('.' :: c :: body) =
      some ('.' :: c :: body.takeWhile isWordChar, body.dropWhile isWordChar) := by
  simp [splitWord, hc, List.span_eq_takeWhile_dropWhile, isWordChar_of_isWordStart hc]

theorem isWord_of_splitWord (h : splitWord cs = some (word, rest)) :
    IsWord word ∧ cs = word ++ rest := by
  have hchars : ∀ (body : List Char), ∀ d ∈ body.takeWhile Statement.isWordChar,
      Statement.isWordChar d := fun body d hd => List.mem_takeWhile_imp hd
  rcases cs with _ | ⟨c, cs⟩
  · cases h
  by_cases hc : isWordStart c
  · rw [splitWord_body hc] at h
    cases h
    exact ⟨⟨c, _, hc, hchars cs, .inl rfl⟩, by simp⟩
  by_cases hpoint : c = '.'
  · subst hpoint
    rcases cs with _ | ⟨d, cs⟩
    · cases h
    by_cases hd : isWordStart d
    · rw [splitWord_point hd] at h
      cases h
      exact ⟨⟨d, _, hd, hchars cs, .inr rfl⟩, by simp⟩
    · simp [splitWord, hd] at h
  · simp [splitWord, hpoint, hc] at h

theorem splitWord_append (hword : IsWord word) (hrest : ∀ c ∈ rest.head?, isWordChar c = false) :
    splitWord (word ++ rest) = some (word, rest) := by
  obtain ⟨c, body, hc, hbody, hword⟩ := hword
  have htake : (body ++ rest).takeWhile isWordChar = body := by
    rw [List.takeWhile_append_of_pos hbody]
    cases rest with
    | nil => simp
    | cons d rest => simp [hrest d rfl]
  have hdrop : (body ++ rest).dropWhile isWordChar = rest := by
    rw [List.dropWhile_append_of_pos hbody]
    cases rest with
    | nil => rfl
    | cons d rest => simp [hrest d rfl]
  rcases hword with rfl | rfl
  · rw [List.cons_append, splitWord_body hc, htake, hdrop]
  · rw [List.cons_append, List.cons_append, splitWord_point hc, htake, hdrop]

/-! ## Statements -/

def ofLine? (line : List Char) : Option Statement := read? (trim (dropComment line))

theorem read?_argument (hword : IsWord word) (hne : gap ≠ []) (hgap : ∀ c ∈ gap, isBlank c)
    (hargument : argument ≠ []) (hsolid : ∀ c ∈ argument, isBlank c = false) :
    read? (word ++ (gap ++ argument)) = some ⟨String.ofList word, some (String.ofList argument)⟩ := by
  obtain ⟨b, gap, rfl⟩ := List.exists_cons_of_ne_nil hne
  have hb := hgap b List.mem_cons_self
  have hrest : ∀ c ∈ (b :: gap ++ argument).head?, isWordChar c = false := by
    rintro c hc
    cases hc
    by_contra hchar
    rw [isBlank_of_isWordChar (by simpa using hchar)] at hb
    cases hb
  have hdrop : (b :: gap ++ argument).dropWhile isBlank = argument := by
    refine dropWhile_blanks hgap fun c hc => hsolid c ?_
    exact List.mem_of_mem_head? hc
  have hall : argument.all (!isBlank ·) := by simpa using hsolid
  simp only [read?, splitWord_append hword hrest, Option.bind_eq_bind, Option.bind_some]
  rw [List.cons_append] at hdrop ⊢
  simp only [hdrop]
  rw [if_pos ⟨hb, hargument, hall⟩]

theorem exists_argument {word argument : String} (h : read? cs = some ⟨word, some argument⟩) :
    ∃ gap, cs = word.toList ++ (gap ++ argument.toList) ∧ IsWord word.toList ∧ gap ≠ [] ∧
      (∀ c ∈ gap, isBlank c) ∧ argument.toList ≠ [] ∧ ∀ c ∈ argument.toList, isBlank c = false := by
  unfold read? at h
  obtain ⟨⟨w, rest⟩, hsplit, hrest⟩ := Option.bind_eq_some_iff.mp h
  obtain ⟨hword, hcs⟩ := isWord_of_splitWord hsplit
  cases rest with
  | nil => cases hrest
  | cons b rest =>
    simp only at hrest
    split at hrest
    · rename_i hcondition
      obtain ⟨hb, hne, hall⟩ := hcondition
      cases hrest
      refine ⟨(b :: rest).takeWhile isBlank, ?_, by simpa using hword, by simp [hb],
        fun c hc => List.mem_takeWhile_imp hc, by simpa using hne, by simpa using hall⟩
      rw [String.toList_ofList, String.toList_ofList, List.takeWhile_append_dropWhile, hcs]
    · cases hrest

/-! ## Replacing the argument -/

structure Spelling (word argument : List Char) where
  lead : List Char
  gap : List Char
  trail : List Char
  comment : List Char
  isWord : IsWord word
  argument_ne : argument ≠ []
  solid : ∀ c ∈ argument, isBlank c = false
  lead_blank : ∀ c ∈ lead, isBlank c
  gap_ne : gap ≠ []
  gap_blank : ∀ c ∈ gap, isBlank c
  trail_blank : ∀ c ∈ trail, isBlank c
  comment_dropped : dropComment comment = []
  argument_kept : dropComment (argument ++ (trail ++ comment)) = argument ++ trail

def Spelling.line {word argument : List Char} (s : Spelling word argument) (text : List Char) :
    List Char :=
  s.lead ++ (word ++ s.gap) ++ (text ++ (s.trail ++ s.comment))

/-- What is read as a word and an argument is spelled so. -/
theorem exists_spelling {line : List Char} {word argument : String}
    (h : ofLine? line = some ⟨word, some argument⟩) :
    ∃ s : Spelling word.toList argument.toList, s.line argument.toList = line := by
  obtain ⟨comment, hline, hcomment⟩ := exists_comment line
  obtain ⟨lead, trail, htrim, hlead, htrail⟩ := exists_trim (dropComment line)
  obtain ⟨gap, hread, hword, hne, hgap, hargument, hsolid⟩ := exists_argument h
  rw [hread] at htrim
  have hparts : line = lead ++ (word.toList ++ gap) ++ (argument.toList ++ (trail ++ comment)) := by
    rw [hline, htrim]
    simp only [List.append_assoc]
  have hkept : dropComment (argument.toList ++ (trail ++ comment)) = argument.toList ++ trail := by
    have hdrop := dropComment_append (hword.front_quiet hlead hgap) (argument.toList ++ (trail ++ comment))
    rw [← hparts, htrim] at hdrop
    simpa using hdrop.symm
  exact ⟨⟨lead, gap, trail, comment, hword, hargument, hsolid, hlead, hne, hgap, htrail, hcomment,
    hkept⟩, hparts.symm⟩

def fromArgument (line : List Char) : List Char :=
  ((line.dropWhile isBlank).dropWhile (!isBlank ·)).dropWhile isBlank

def replaceArgument (text line : List Char) : List Char :=
  let rest := fromArgument line
  let argument := (dropComment rest).takeWhile (!isBlank ·)
  line.take (line.length - rest.length) ++ (text ++ rest.drop argument.length)

theorem newline_not_mem_replaceArgument {line : List Char} (hline : '\n' ∉ line)
    (htext : '\n' ∉ text) : '\n' ∉ replaceArgument text line := by
  have hrest : '\n' ∉ fromArgument line := fun h => hline <|
    (((List.dropWhile_suffix _).trans (List.dropWhile_suffix _)).trans
      (List.dropWhile_suffix _)).subset h
  simp only [replaceArgument, List.mem_append, not_or]
  exact ⟨mt List.mem_of_mem_take hline, htext, mt List.mem_of_mem_drop hrest⟩

namespace Spelling

variable {word argument : List Char}

theorem fromArgument_line (s : Spelling word argument) :
    fromArgument (s.line argument) = argument ++ (s.trail ++ s.comment) := by
  obtain ⟨b, gap, hgap⟩ := List.exists_cons_of_ne_nil s.gap_ne
  have hb := s.gap_blank b (by simp [hgap])
  have hsolid : ∀ c ∈ word, isBlank c = false :=
    fun c hc => isBlank_of_isWordChar (s.isWord.isWordChar c hc)
  rw [fromArgument, line, List.append_assoc, List.append_assoc, dropWhile_blanks s.lead_blank,
    List.dropWhile_append_of_pos (by simpa using hsolid), hgap, List.cons_append,
    List.dropWhile_cons_of_neg (by simp [hb]), ← List.cons_append, ← hgap]
  · refine dropWhile_blanks s.gap_blank fun c hc => ?_
    rw [List.head?_append_of_ne_nil _ s.argument_ne] at hc
    exact s.solid c (List.mem_of_mem_head? hc)
  · intro c hc
    rw [List.head?_append_of_ne_nil _ s.isWord.ne_nil] at hc
    exact hsolid c (List.mem_of_mem_head? hc)

theorem replaceArgument_line (s : Spelling word argument) (text : List Char) :
    replaceArgument text (s.line argument) = s.line text := by
  have hargument : (dropComment (argument ++ (s.trail ++ s.comment))).takeWhile (!isBlank ·) =
      argument := by
    rw [s.argument_kept, List.takeWhile_append_of_pos (by simpa using s.solid)]
    cases htrail : s.trail with
    | nil => simp
    | cons c trail =>
      have hc := s.trail_blank c (by simp [htrail])
      simp [hc]
  rw [replaceArgument, s.fromArgument_line, hargument, List.drop_left, line, List.length_append,
    Nat.add_sub_cancel, List.take_left, line]

end Spelling

/-- A line keeps its word when its argument is replaced by a text that has no blanks and starts no
comment. -/
theorem ofLine?_replaceArgument {line : List Char} {word argument : String}
    (h : ofLine? line = some ⟨word, some argument⟩) (hne : text ≠ [])
    (hsolid : ∀ c ∈ text, isBlank c = false) (hquiet : ∀ c ∈ text, isQuiet c) :
    ofLine? (replaceArgument text line) = some ⟨word, some (String.ofList text)⟩ := by
  obtain ⟨s, rfl⟩ := exists_spelling h
  have hdrop : dropComment (s.line text) =
      s.lead ++ (word.toList ++ (s.gap ++ text)) ++ s.trail := by
    rw [Spelling.line, dropComment_append (s.isWord.front_quiet s.lead_blank s.gap_blank),
      dropComment_append hquiet,
      dropComment_append fun c hc => isQuiet_of_isBlank (s.trail_blank c hc), s.comment_dropped]
    simp only [List.append_assoc, List.append_nil]
  have htrim : trim (dropComment (s.line text)) = word.toList ++ (s.gap ++ text) := by
    rw [hdrop]
    refine trim_append s.lead_blank s.trail_blank (by simp [hne]) ?_ ?_
    · intro c hc
      rw [List.head?_append_of_ne_nil _ s.isWord.ne_nil] at hc
      exact isBlank_of_isWordChar (s.isWord.isWordChar c (List.mem_of_mem_head? hc))
    · intro c hc
      rw [← List.append_assoc, List.getLast?_append_of_ne_nil _ hne] at hc
      exact hsolid c (List.mem_of_mem_getLast? hc)
  rw [s.replaceArgument_line, ofLine?, htrim,
    read?_argument s.isWord s.gap_ne s.gap_blank hne hsolid, String.ofList_toList]

end SpuCompiler.Bytecode.Statement
