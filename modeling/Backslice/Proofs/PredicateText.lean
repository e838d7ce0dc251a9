import Mathlib.Computability.Language
import Backslice.Proofs.SignatureText
import Backslice.Store.Predicate

namespace Backslice

namespace Text

def runs (p : Char → Bool) : Language Char := {cs | ∀ c ∈ cs, p c = true}

def words (p : Char → Bool) : Language Char := {cs | cs ≠ [] ∧ ∀ c ∈ cs, p c = true}

theorem takeWhile_mem_runs (p : Char → Bool) (cs : List Char) : cs.takeWhile p ∈ runs p :=
  fun _ hc => List.mem_takeWhile_imp hc

theorem trimEnd_append {cs trail : List Char} (htrail : trail ∈ runs isBlank) :
    trimEnd (cs ++ trail) = trimEnd cs := by
  have hreverse : ∀ c ∈ trail.reverse, isBlank c = true := fun c hc =>
    htrail c (List.mem_reverse.1 hc)
  rw [trimEnd, List.reverse_append, List.dropWhile_append_of_pos hreverse, trimEnd]

/-- Blanks around a text do not matter once it is trimmed. -/
theorem trimChars_padded {lead cs trail : List Char} (hlead : lead ∈ runs isBlank)
    (htrail : trail ∈ runs isBlank) : trimChars (lead ++ (cs ++ trail)) = trimChars cs := by
  rw [trimChars, List.dropWhile_append_of_pos hlead, List.dropWhile_append, trimChars]
  split
  · rename_i hblank
    rw [List.isEmpty_iff.1 hblank, List.dropWhile_eq_nil_iff.2 htrail]
  · exact trimEnd_append htrail

/-- A text is what trimming its end leaves and blanks after it. -/
theorem exists_trimEnd_append (cs : List Char) :
    ∃ trail ∈ runs isBlank, trimEnd cs ++ trail = cs :=
  ⟨cs.rtakeWhile isBlank, fun _ hc => List.mem_rtakeWhile_imp hc, by
    rw [trimEnd_eq_rdropWhile, List.rdropWhile_append_rtakeWhile]⟩

def blankRanges : List (Nat × Nat) :=
  [(9, 13), (0x20, 0x20), (0x85, 0x85), (0xA0, 0xA0), (0x1680, 0x1680), (0x2000, 0x200A),
   (0x2028, 0x2029), (0x202F, 0x202F), (0x205F, 0x205F), (0x3000, 0x3000)]

theorem exists_range_of_isBlank {c : Char} (h : isBlank c = true) :
    ∃ b ∈ blankRanges, b.1 ≤ c.toNat ∧ c.toNat ≤ b.2 := by
  simp only [isBlank, Bool.or_eq_true, Bool.and_eq_true, decide_eq_true_eq, beq_iff_eq] at h
  simp only [blankRanges, List.mem_cons, List.not_mem_nil, or_false, exists_eq_or_imp,
    exists_eq_left]
  omega

theorem wordRanges_apart_from_blankRanges {r b : Nat × Nat} (hr : r ∈ wordRanges)
    (hb : b ∈ blankRanges) : r.2 < b.1 ∨ b.2 < r.1 := by
  have hall : (wordRanges.all fun r => blankRanges.all fun b =>
      r.2.blt b.1 || b.2.blt r.1) = true := by decide +kernel
  have hapart := List.all_eq_true.1 (List.all_eq_true.1 hall r hr) b hb
  simpa only [Bool.or_eq_true, Nat.blt_eq] using hapart

theorem isAlphanum_eq_false_of_isBlank {c : Char} (h : isBlank c = true) :
    c.isAlphanum = false := by
  obtain ⟨b, hb, hlower, hupper⟩ := exists_range_of_isBlank h
  have hall : ∀ b ∈ blankRanges, ∀ n ∈ List.range' b.1 (b.2 - b.1 + 1),
      (Char.ofNat n).isAlphanum = false := by decide
  have hcode : c.toNat ∈ List.range' b.1 (b.2 - b.1 + 1) :=
    List.mem_range'_1.2 ⟨hlower, by omega⟩
  rw [← Char.ofNat_toNat c]
  exact hall b hb c.toNat hcode

theorem isWord_eq_false_of_isBlank {c : Char} (h : isBlank c = true) : isWord c = false := by
  obtain ⟨b, hb, hlower, hupper⟩ := exists_range_of_isBlank h
  have hranges : (wordRanges.any fun r => r.1 ≤ c.toNat && c.toNat ≤ r.2) = false := by
    rw [List.any_eq_false]
    intro r hr hmem
    simp only [Bool.and_eq_true, decide_eq_true_eq] at hmem
    have hapart := wordRanges_apart_from_blankRanges hr hb
    omega
  rw [isWord, isAlphanum_eq_false_of_isBlank h, hranges, Bool.or_false]

end Text

namespace Path

structure IsWords (p : Path) : Prop where
  ne : p.segments ≠ []
  words : ∀ s ∈ p.segments, s ≠ "" ∧ ∀ c ∈ s.toList, Text.isWord c = true

theorem toList_text (p : Path) :
    p.text.toList = ['.'].intercalate (p.segments.map String.toList) := by
  simp [text, String.toList_intercalate]

theorem parse_text {p : Path} (h : p.IsWords) : parse p.text = p := by
  have hsplit : Text.splitChars '.' p.text.toList = p.segments.map String.toList := by
    rw [toList_text]
    refine Text.splitChars_intercalate (by simpa using h.ne) fun piece hpiece hdot => ?_
    obtain ⟨s, hs, rfl⟩ := List.mem_map.1 hpiece
    exact absurd ((h.words s hs).2 '.' hdot) (by decide +kernel)
  have hfilter : (p.segments.map String.toList).filter (!·.isEmpty) =
      p.segments.map String.toList := by
    rw [List.filter_eq_self]
    intro piece hpiece
    obtain ⟨s, hs, rfl⟩ := List.mem_map.1 hpiece
    simpa using (h.words s hs).1
  rw [parse, hsplit, hfilter, List.map_map]
  simp [Function.comp_def]

theorem text_mem_words {p : Path} (h : p.IsWords) :
    p.text.toList ∈ Text.words Predicate.isPathChar := by
  rw [toList_text]
  constructor
  · obtain ⟨s, rest, hsegments⟩ := List.exists_cons_of_ne_nil h.ne
    have hs : s ≠ "" := (h.words s (by simp [hsegments])).1
    cases rest with
    | nil => simpa [hsegments] using hs
    | cons next rest => simp [hsegments, List.intercalate_cons_cons]
  · intro c hc
    rcases Text.mem_intercalate hc with rfl | ⟨piece, hpiece, hc⟩
    · rfl
    · obtain ⟨s, hs, rfl⟩ := List.mem_map.1 hpiece
      simp [Predicate.isPathChar, (h.words s hs).2 c hc]

end Path

namespace Predicate

open Text

/-- A path, the word `in` between blanks and a needle. -/
def inPattern : Language Char :=
  runs isBlank * words isPathChar * words isBlank * {['i', 'n']} * words isBlank *
    words (· ≠ '\n') * runs isBlank

/-- A path, one of two comparisons and a value that may be empty. -/
def equalityPattern : Language Char :=
  runs isBlank * words isPathChar * runs isBlank * ({['=', '=']} + {['!', '=']}) * runs isBlank *
    runs (· ≠ '\n') * runs isBlank

theorem mem_inPattern_iff {cs : List Char} : cs ∈ inPattern ↔
    ∃ lead ∈ runs isBlank, ∃ path ∈ words isPathChar, ∃ before ∈ words isBlank,
      ∃ after ∈ words isBlank, ∃ value ∈ words (· ≠ '\n'), ∃ trail ∈ runs isBlank,
        lead ++ (path ++ (before ++ ('i' :: 'n' :: (after ++ (value ++ trail))))) = cs := by
  simp only [inPattern, mul_assoc]
  constructor
  · rintro ⟨lead, hlead, _, ⟨path, hpath, _, ⟨before, hbefore, _, ⟨_, rfl, _, ⟨after, hafter, _,
      ⟨value, hvalue, trail, htrail, rfl⟩, rfl⟩, rfl⟩, rfl⟩, rfl⟩, rfl⟩
    exact ⟨lead, hlead, path, hpath, before, hbefore, after, hafter, value, hvalue, trail, htrail,
      rfl⟩
  · rintro ⟨lead, hlead, path, hpath, before, hbefore, after, hafter, value, hvalue, trail, htrail,
      rfl⟩
    exact ⟨lead, hlead, _, ⟨path, hpath, _, ⟨before, hbefore, _, ⟨_, rfl, _, ⟨after, hafter, _,
      ⟨value, hvalue, trail, htrail, rfl⟩, rfl⟩, rfl⟩, rfl⟩, rfl⟩, rfl⟩

theorem mem_equalityPattern_iff {cs : List Char} : cs ∈ equalityPattern ↔
    ∃ lead ∈ runs isBlank, ∃ path ∈ words isPathChar, ∃ before ∈ runs isBlank,
      ∃ first, (first = '=' ∨ first = '!') ∧
      ∃ after ∈ runs isBlank, ∃ value ∈ runs (· ≠ '\n'), ∃ trail ∈ runs isBlank,
        lead ++ (path ++ (before ++ (first :: '=' :: (after ++ (value ++ trail))))) = cs := by
  simp only [equalityPattern, mul_assoc]
  constructor
  · rintro ⟨lead, hlead, _, ⟨path, hpath, _, ⟨before, hbefore, _, ⟨op, hop, _, ⟨after, hafter, _,
      ⟨value, hvalue, trail, htrail, rfl⟩, rfl⟩, rfl⟩, rfl⟩, rfl⟩, rfl⟩
    rcases hop with rfl | rfl
    · exact ⟨lead, hlead, path, hpath, before, hbefore, '=', .inl rfl, after, hafter, value, hvalue,
        trail, htrail, rfl⟩
    · exact ⟨lead, hlead, path, hpath, before, hbefore, '!', .inr rfl, after, hafter, value, hvalue,
        trail, htrail, rfl⟩
  · rintro ⟨lead, hlead, path, hpath, before, hbefore, first, hfirst, after, hafter, value, hvalue,
      trail, htrail, rfl⟩
    refine ⟨lead, hlead, _, ⟨path, hpath, _, ⟨before, hbefore, _, ⟨[first, '='], ?_, _,
      ⟨after, hafter, _, ⟨value, hvalue, trail, htrail, rfl⟩, rfl⟩, rfl⟩, rfl⟩, rfl⟩, rfl⟩
    rcases hfirst with rfl | rfl
    · exact .inl rfl
    · exact .inr rfl

theorem isPathChar_eq_false_of_isBlank {c : Char} (h : isBlank c = true) :
    isPathChar c = false := by
  have hdot : c ≠ '.' := by
    rintro rfl
    exact absurd h (by decide)
  simp [isPathChar, hdot, isWord_eq_false_of_isBlank h]

theorem isBlank_eq_false_of_isPathChar {c : Char} (h : isPathChar c = true) :
    isBlank c = false := by
  rw [← Bool.not_eq_true]
  intro hblank
  rw [isPathChar_eq_false_of_isBlank hblank] at h
  cases h

theorem path?_append {lead path rest : List Char} (hlead : lead ∈ runs isBlank)
    (hpath : path ∈ words isPathChar) (hrest : ∀ c ∈ rest.head?, isPathChar c = false) :
    path? (lead ++ (path ++ rest)) = some (String.ofList path, rest) := by
  obtain ⟨hne, hpath⟩ := hpath
  cases path with
  | nil => exact absurd rfl hne
  | cons c path =>
    have hstart : ∀ d ∈ (c :: path ++ rest).head?, isBlank d = false := by
      rintro _ ⟨⟩
      exact isBlank_eq_false_of_isPathChar (hpath c List.mem_cons_self)
    simp only [path?, dropWhile_append_of_stop hlead hstart, takeWhile_append_of_stop hpath hrest,
      dropWhile_append_of_stop hpath hrest]

theorem blanks?_of_takeWhile {cs : List Char} (h : cs.takeWhile isBlank ≠ []) :
    blanks? cs = some (cs.takeWhile isBlank, cs.dropWhile isBlank) := by
  unfold blanks?
  split
  · rename_i hnil
    exact absurd hnil h
  · rfl

theorem blanks?_append {gap rest : List Char} (hgap : gap ∈ words isBlank)
    (hrest : ∀ c ∈ rest.head?, isBlank c = false) : blanks? (gap ++ rest) = some (gap, rest) := by
  have htake := takeWhile_append_of_stop hgap.2 hrest
  have hne : (gap ++ rest).takeWhile isBlank ≠ [] := by
    rw [htake]
    exact hgap.1
  rw [blanks?_of_takeWhile hne, htake, dropWhile_append_of_stop hgap.2 hrest]

theorem oneLine?_dropWhile {cs value : List Char} (htrim : trimChars cs = trimChars value)
    (hvalue : value ∈ runs (· ≠ '\n')) :
    oneLine? (cs.dropWhile isBlank) = some (trimChars value) := by
  have hline : '\n' ∉ trimChars value := fun h => by
    simpa using hvalue _ (mem_of_mem_trimChars h)
  rw [← htrim] at hline ⊢
  exact if_neg hline

section
variable {lead path before after value trail : List Char}

/-- Both patterns are read alike up to their operator: it starts with no blank, and the path ends
before it. -/
theorem path?_append_operator (first : Char) (rest : List Char) (hlead : lead ∈ runs isBlank)
    (hpath : path ∈ words isPathChar) (hbefore : before ∈ runs isBlank)
    (hfirst : isBlank first = false) (hstop : before ≠ [] ∨ isPathChar first = false) :
    path? (lead ++ (path ++ (before ++ first :: rest))) =
        some (String.ofList path, before ++ first :: rest) ∧
      (before ++ first :: rest).dropWhile isBlank = first :: rest := by
  have hpathEnd : ∀ c ∈ (before ++ first :: rest).head?, isPathChar c = false := by
    cases before with
    | nil =>
      rintro _ ⟨⟩
      exact hstop.resolve_left (by simp)
    | cons b before =>
      rintro _ ⟨⟩
      exact isPathChar_eq_false_of_isBlank (hbefore b List.mem_cons_self)
  have hblanksEnd : ∀ c ∈ (first :: rest).head?, isBlank c = false := by
    rintro _ ⟨⟩
    exact hfirst
  exact ⟨path?_append hlead hpath hpathEnd, dropWhile_append_of_stop hbefore hblanksEnd⟩

theorem comparison_char (first : Char) (h : first = '=' ∨ first = '!') :
    isBlank first = false ∧ isPathChar first = false := by
  rcases h with rfl | rfl
  · decide +kernel
  · decide +kernel

/-- Whatever follows the first blank of the needle's side, only the trimmed needle counts. -/
theorem contains?_append (hlead : lead ∈ runs isBlank) (hpath : path ∈ words isPathChar)
    (hbefore : before ∈ words isBlank) (hafter : after ∈ words isBlank)
    (hvalue : value ∈ words (· ≠ '\n')) (htrail : trail ∈ runs isBlank) :
    contains? (lead ++ (path ++ (before ++ ('i' :: 'n' :: (after ++ (value ++ trail)))))) =
      some (.contains (.parse (String.ofList path))
        (String.ofList (unquote (trimChars value)))) := by
  obtain ⟨hread, -⟩ := path?_append_operator 'i' ('n' :: (after ++ (value ++ trail))) hlead hpath
    hbefore.2 (by decide) (.inl hbefore.1)
  have hin : ∀ c ∈ ('i' :: 'n' :: (after ++ (value ++ trail))).head?, isBlank c = false := by
    rintro _ ⟨⟩
    decide
  have hgap : (after ++ (value ++ trail)).takeWhile isBlank ≠ [] := by
    cases after with
    | nil => exact absurd rfl hafter.1
    | cons a after => simp [hafter.2 a List.mem_cons_self]
  simp only [contains?, hread, Option.bind_eq_bind, Option.bind_some, blanks?_append hbefore hin,
    blanks?_of_takeWhile hgap]
  have htrim : trimChars (after ++ (value ++ trail)) = trimChars value :=
    trimChars_padded hafter.2 htrail
  split
  · -- a needle of blanks alone leaves nothing, and its first character is the one that was needed
    rename_i hempty
    have hnothing : (after ++ (value ++ trail)).dropWhile isBlank = [] := List.isEmpty_iff.1 hempty
    have hall : (after ++ (value ++ trail)).takeWhile isBlank = after ++ (value ++ trail) :=
      List.takeWhile_eq_self_iff.2 (List.dropWhile_eq_nil_iff.1 hnothing)
    have hneedle : trimChars value = [] := by
      rw [← htrim, trimChars, hnothing]
      rfl
    have hline : (after ++ (value ++ trail)).tail.any (· ≠ '\n') = true := by
      obtain ⟨c, hc⟩ := List.exists_mem_of_ne_nil value hvalue.1
      rw [List.tail_append_of_ne_nil hafter.1, List.any_eq_true]
      exact ⟨c, by simp [hc], hvalue.2 c hc⟩
    rw [hall, if_pos hline, hneedle]
    rfl
  · rw [oneLine?_dropWhile htrim hvalue.2]
    rfl

section
variable (hlead : lead ∈ runs isBlank) (hpath : path ∈ words isPathChar)
  (hbefore : before ∈ runs isBlank) (hafter : after ∈ runs isBlank)
  (hvalue : value ∈ runs (· ≠ '\n')) (htrail : trail ∈ runs isBlank)
include hlead hpath hbefore hafter hvalue htrail

theorem equality?_append_equal :
    equality? (lead ++ (path ++ (before ++ '=' :: '=' :: (after ++ (value ++ trail))))) =
      if trimChars value = ['n', 'u', 'l', 'l'] then some (.missing (.parse (String.ofList path)))
      else if (trimChars value).isEmpty then none
      else some (.eq (.parse (String.ofList path)) (literal (trimChars value))) := by
  have hchar := comparison_char '=' (.inl rfl)
  obtain ⟨hread, hoperator⟩ := path?_append_operator '=' ('=' :: (after ++ (value ++ trail))) hlead
    hpath hbefore hchar.1 (.inr hchar.2)
  simp only [equality?, hread, Option.bind_eq_bind, Option.bind_some, hoperator,
    oneLine?_dropWhile (trimChars_padded hafter htrail) hvalue]
  rfl

theorem equality?_append_unequal :
    equality? (lead ++ (path ++ (before ++ '!' :: '=' :: (after ++ (value ++ trail))))) =
      if trimChars value = ['n', 'u', 'l', 'l'] then some (.exists (.parse (String.ofList path)))
      else none := by
  have hchar := comparison_char '!' (.inr rfl)
  obtain ⟨hread, hoperator⟩ := path?_append_operator '!' ('=' :: (after ++ (value ++ trail))) hlead
    hpath hbefore hchar.1 (.inr hchar.2)
  simp only [equality?, hread, Option.bind_eq_bind, Option.bind_some, hoperator,
    oneLine?_dropWhile (trimChars_padded hafter htrail) hvalue]
  rfl

end

end

theorem exists_of_path? {cs rest : List Char} {path : String} (h : path? cs = some (path, rest)) :
    ∃ lead ∈ runs isBlank, ∃ word ∈ words isPathChar, lead ++ (word ++ rest) = cs := by
  simp only [path?] at h
  split at h
  · cases h
  · rename_i hne
    cases h
    refine ⟨_, takeWhile_mem_runs isBlank cs, _, ⟨hne, takeWhile_mem_runs isPathChar _⟩, ?_⟩
    rw [List.takeWhile_append_dropWhile, List.takeWhile_append_dropWhile]

theorem of_blanks? {cs gap rest : List Char} (h : blanks? cs = some (gap, rest)) :
    gap ∈ words isBlank ∧ gap ++ rest = cs ∧ rest = cs.dropWhile isBlank := by
  unfold blanks? at h
  split at h
  · cases h
  · rename_i hne
    cases h
    exact ⟨⟨hne, takeWhile_mem_runs isBlank cs⟩, List.takeWhile_append_dropWhile, rfl⟩

theorem of_oneLine? {cs raw : List Char} (h : oneLine? cs = some raw) :
    raw ∈ runs (· ≠ '\n') ∧ ∃ trail ∈ runs isBlank, raw ++ trail = cs := by
  simp only [oneLine?] at h
  split at h
  · cases h
  · rename_i hline
    cases h
    refine ⟨fun c hc => decide_eq_true ?_, exists_trimEnd_append cs⟩
    rintro rfl
    exact hline hc

/-- The blanks after `in` hold a needle if one of them, but the first, does not end the line. -/
theorem exists_needle_of_blanks {gap : List Char} (hgap : gap ∈ words isBlank)
    (h : gap.tail.any (· ≠ '\n') = true) :
    ∃ after ∈ words isBlank, ∃ value ∈ words (· ≠ '\n'), ∃ trail ∈ runs isBlank,
      after ++ (value ++ trail) = gap := by
  cases gap with
  | nil => exact absurd rfl hgap.1
  | cons b gap =>
    obtain ⟨c, hc, hline⟩ := List.any_eq_true.1 h
    obtain ⟨start, trail, rfl⟩ := List.append_of_mem hc
    refine ⟨b :: start, ⟨by simp, fun d hd => hgap.2 d ?_⟩, [c], ⟨by simp, by simpa using hline⟩,
      trail, fun d hd => hgap.2 d (by simp [hd]), rfl⟩
    rcases List.mem_cons.1 hd with rfl | hd
    · exact List.mem_cons_self
    · simp [hd]

/-- A line after blanks is not all blank, so trimming leaves some of it. -/
theorem ne_nil_of_oneLine? {cs raw : List Char} (hne : cs.dropWhile isBlank ≠ [])
    (h : oneLine? (cs.dropWhile isBlank) = some raw) : raw ≠ [] := by
  rintro rfl
  obtain ⟨-, trail, htrail, heq⟩ := of_oneLine? h
  rw [List.nil_append] at heq
  rw [heq] at htrail
  have hhead := htrail _ (List.head_mem hne)
  rw [List.head_dropWhile_not isBlank hne] at hhead
  cases hhead

theorem mem_inPattern_of_contains? {cs : List Char} {p : Predicate} (h : contains? cs = some p) :
    cs ∈ inPattern := by
  simp only [contains?, Option.bind_eq_bind, Option.bind_eq_some_iff, Prod.exists] at h
  obtain ⟨path, _, hread, before, _, hblanks, h⟩ := h
  obtain ⟨lead, hlead, word, hword, rfl⟩ := exists_of_path? hread
  obtain ⟨hbefore, rfl, -⟩ := of_blanks? hblanks
  rw [mem_inPattern_iff]
  split at h
  · rename_i rest
    obtain ⟨⟨gap, tail⟩, hgapRead, hneedle⟩ := Option.bind_eq_some_iff.1 h
    obtain ⟨hgap, hrest, htail⟩ := of_blanks? hgapRead
    -- what is left is to cut the text after the operator
    suffices hcut : ∃ after ∈ words isBlank, ∃ value ∈ words (· ≠ '\n'),
        ∃ trail ∈ runs isBlank, after ++ (value ++ trail) = rest by
      obtain ⟨after, hafter, value, hvalue, trail, htrail, rfl⟩ := hcut
      exact ⟨lead, hlead, word, hword, before, hbefore, after, hafter, value, hvalue, trail, htrail,
        rfl⟩
    dsimp only at hneedle
    split at hneedle
    · rename_i hempty
      split at hneedle
      · rename_i hline
        rw [← hrest, List.isEmpty_iff.1 hempty, List.append_nil]
        exact exists_needle_of_blanks hgap hline
      · cases hneedle
    · rename_i hne
      obtain ⟨raw, hraw, -⟩ := Option.bind_eq_some_iff.1 hneedle
      obtain ⟨hline, trail, htrail, rfl⟩ := of_oneLine? hraw
      rw [htail] at hraw
      have hrawNe := ne_nil_of_oneLine? (by simpa [htail] using hne) hraw
      exact ⟨gap, hgap, raw, ⟨hrawNe, hline⟩, trail, htrail, hrest⟩
  · cases h

theorem mem_equalityPattern_of_operator {lead word rest tail raw : List Char} {first : Char}
    (hlead : lead ∈ runs isBlank) (hword : word ∈ words isPathChar)
    (hfirst : first = '=' ∨ first = '!') (hrest : rest.dropWhile isBlank = first :: '=' :: tail)
    (hraw : oneLine? (tail.dropWhile isBlank) = some raw) :
    lead ++ (word ++ rest) ∈ equalityPattern := by
  obtain ⟨hline, trail, htrail, htail⟩ := of_oneLine? hraw
  refine mem_equalityPattern_iff.2 ⟨lead, hlead, word, hword, _, takeWhile_mem_runs isBlank rest,
    first, hfirst, _, takeWhile_mem_runs isBlank tail, raw, hline, trail, htrail, ?_⟩
  rw [htail, List.takeWhile_append_dropWhile, ← hrest, List.takeWhile_append_dropWhile]

theorem mem_equalityPattern_of_equality? {cs : List Char} {p : Predicate}
    (h : equality? cs = some p) : cs ∈ equalityPattern := by
  simp only [equality?, Option.bind_eq_bind, Option.bind_eq_some_iff, Prod.exists] at h
  obtain ⟨path, rest, hread, h⟩ := h
  obtain ⟨lead, hlead, word, hword, rfl⟩ := exists_of_path? hread
  split at h
  · rename_i hrest
    obtain ⟨raw, hraw, -⟩ := Option.bind_eq_some_iff.1 h
    exact mem_equalityPattern_of_operator hlead hword (.inl rfl) hrest hraw
  · rename_i hrest
    obtain ⟨raw, hraw, -⟩ := Option.bind_eq_some_iff.1 h
    exact mem_equalityPattern_of_operator hlead hword (.inr rfl) hrest hraw
  · cases h

/-- After the path and the blanks that follow it, the two patterns go on with different
characters. -/
theorem not_mem_equalityPattern_of_mem_inPattern {cs : List Char} (h : cs ∈ inPattern) :
    cs ∉ equalityPattern := by
  intro heq
  obtain ⟨lead, hlead, path, hpath, before, hbefore, after, -, value, -, trail, -, rfl⟩ :=
    mem_inPattern_iff.1 h
  obtain ⟨lead', hlead', path', hpath', before', hbefore', first, hfirst, _, -, _, -, _, -, heq⟩ :=
    mem_equalityPattern_iff.1 heq
  have hchar := comparison_char first hfirst
  obtain ⟨hread, hin⟩ := path?_append_operator 'i' ('n' :: (after ++ (value ++ trail))) hlead hpath
    hbefore.2 (by decide) (.inl hbefore.1)
  obtain ⟨hread', hcomparison⟩ := path?_append_operator first _ hlead' hpath' hbefore' hchar.1
    (.inr hchar.2)
  rw [heq, hread, Option.some.injEq, Prod.mk.injEq] at hread'
  rw [← hread'.2, hin] at hcomparison
  have hsame : 'i' = first := List.head_eq_of_cons_eq hcomparison
  rcases hfirst with rfl | rfl
  · exact absurd hsame (by decide)
  · exact absurd hsame (by decide)

theorem isSome_contains?_iff {cs : List Char} : (contains? cs).isSome = true ↔ cs ∈ inPattern := by
  constructor
  · intro h
    obtain ⟨p, hp⟩ := Option.isSome_iff_exists.1 h
    exact mem_inPattern_of_contains? hp
  · intro h
    obtain ⟨lead, hlead, path, hpath, before, hbefore, after, hafter, value, hvalue, trail, htrail,
      rfl⟩ := mem_inPattern_iff.1 h
    rw [contains?_append hlead hpath hbefore hafter hvalue htrail, Option.isSome_some]

theorem parse_of_contains? {s : String} {p : Predicate} (h : contains? s.toList = some p) :
    parse s = .ok p := by
  rw [parse, h]
  rfl

theorem parse_of_equality? {s : String} {p : Predicate} (h : equality? s.toList = some p) :
    parse s = .ok p := by
  have hin : contains? s.toList = none := by
    rw [← Option.not_isSome_iff_eq_none, isSome_contains?_iff]
    exact fun hin => not_mem_equalityPattern_of_mem_inPattern hin
      (mem_equalityPattern_of_equality? h)
  rw [parse, hin, h]
  rfl

theorem unquote_quoted (cs : List Char) : unquote ('"' :: (cs ++ ['"'])) = cs := by
  simp [unquote]

section
variable {p : Path} {lead before after trail : String} (hp : p.IsWords)
  (hlead : lead.toList ∈ runs isBlank) (hbefore : before.toList ∈ runs isBlank)
  (hafter : after.toList ∈ runs isBlank) (htrail : trail.toList ∈ runs isBlank)
include hp hlead hbefore hafter htrail

theorem parse_unequal_null :
    parse (lead ++ p.text ++ before ++ "!=" ++ after ++ "null" ++ trail) = .ok (.exists p) := by
  have hnull : "null".toList ∈ runs (· ≠ '\n') := List.all_eq_true.1 (by decide)
  have hread := equality?_append_unequal hlead (Path.text_mem_words hp) hbefore hafter hnull htrail
  rw [if_pos (by decide), String.ofList_toList, Path.parse_text hp] at hread
  apply parse_of_equality?
  simpa using hread

theorem parse_equal_null :
    parse (lead ++ p.text ++ before ++ "==" ++ after ++ "null" ++ trail) = .ok (.missing p) := by
  have hnull : "null".toList ∈ runs (· ≠ '\n') := List.all_eq_true.1 (by decide)
  have hread := equality?_append_equal hlead (Path.text_mem_words hp) hbefore hafter hnull htrail
  rw [if_pos (by decide), String.ofList_toList, Path.parse_text hp] at hread
  apply parse_of_equality?
  simpa using hread

/-- `null` is a document, so a value that is none is not taken for a missing one. -/
theorem parse_equal_text {v : String} (hne : v ≠ "") (hline : '\n' ∉ v.toList)
    (htrim : trim v = v) (hjson : Json.parse? v = none) :
    parse (lead ++ p.text ++ before ++ "==" ++ after ++ v ++ trail) = .ok (.eq p (.str v)) := by
  have hvalue : v.toList ∈ runs (· ≠ '\n') := fun c hc => decide_eq_true fun h => hline (h ▸ hc)
  have hnull : v.toList ≠ ['n', 'u', 'l', 'l'] := by
    intro h
    have hv : v = "null" := String.toList_inj.1 h
    have hdocument : (Json.parse? "null").isSome = true := by decide +kernel
    rw [hv] at hjson
    rw [hjson] at hdocument
    cases hdocument
  have hread := equality?_append_equal hlead (Path.text_mem_words hp) hbefore hafter hvalue htrail
  rw [trim_eq_self_iff.1 htrim, if_neg hnull, if_neg (by simpa using hne), String.ofList_toList,
    Path.parse_text hp, literal, String.ofList_toList, hjson] at hread
  apply parse_of_equality?
  simpa using hread

theorem parse_in_quoted (hne : before ≠ "") (hne' : after ≠ "") {needle : String}
    (hline : '\n' ∉ needle.toList) :
    parse (lead ++ p.text ++ before ++ "in" ++ after ++ "\"" ++ needle ++ "\"" ++ trail) =
      .ok (.contains p needle) := by
  have hvalue : '"' :: (needle.toList ++ ['"']) ∈ words (· ≠ '\n') := by
    refine ⟨by simp, fun c hc => decide_eq_true ?_⟩
    rintro rfl
    simp [hline] at hc
  have hread := contains?_append hlead (Path.text_mem_words hp) ⟨by simpa using hne, hbefore⟩
    ⟨by simpa using hne', hafter⟩ hvalue htrail
  rw [trimChars_enclosed (by decide) (by decide), unquote_quoted, String.ofList_toList,
    String.ofList_toList, Path.parse_text hp] at hread
  apply parse_of_contains?
  simpa using hread

end

/-- No text fits both patterns, and the two readers accept texts of their patterns only. For a path
of words, presence, absence, a quoted needle and a text that is no document are read as they are
written, whatever blanks stand around the operator and at both ends. -/
theorem conditions_read_as_written :
    (∀ cs ∈ inPattern, cs ∉ equalityPattern) ∧
    (∀ cs, (contains? cs).isSome = true ↔ cs ∈ inPattern) ∧
    (∀ cs, (equality? cs).isSome = true → cs ∈ equalityPattern) ∧
    ∀ (p : Path) (lead before after trail : String), p.IsWords →
      lead.toList ∈ runs isBlank → before.toList ∈ runs isBlank →
      after.toList ∈ runs isBlank → trail.toList ∈ runs isBlank →
      parse (lead ++ p.text ++ before ++ "!=" ++ after ++ "null" ++ trail) = .ok (.exists p) ∧
      parse (lead ++ p.text ++ before ++ "==" ++ after ++ "null" ++ trail) = .ok (.missing p) ∧
      (∀ needle : String, before ≠ "" → after ≠ "" → '\n' ∉ needle.toList →
        parse (lead ++ p.text ++ before ++ "in" ++ after ++ "\"" ++ needle ++ "\"" ++ trail) =
          .ok (.contains p needle)) ∧
      ∀ v : String, v ≠ "" → '\n' ∉ v.toList → trim v = v → Json.parse? v = none →
        parse (lead ++ p.text ++ before ++ "==" ++ after ++ v ++ trail) =
          .ok (.eq p (.str v)) := by
  refine ⟨fun cs => not_mem_equalityPattern_of_mem_inPattern, fun cs => isSome_contains?_iff,
    fun cs h => ?_, ?_⟩
  · obtain ⟨p, hp⟩ := Option.isSome_iff_exists.1 h
    exact mem_equalityPattern_of_equality? hp
  · intro p lead before after trail hp hlead hbefore hafter htrail
    refine ⟨parse_unequal_null hp hlead hbefore hafter htrail,
      parse_equal_null hp hlead hbefore hafter htrail, fun needle hne hne' hline => ?_,
      fun v hne hline htrim hjson => ?_⟩
    · exact parse_in_quoted hp hlead hbefore hafter htrail hne hne' hline
    · exact parse_equal_text hp hlead hbefore hafter htrail hne hline htrim hjson

def lineTexts : Path := ⟨["content", "unitString"]⟩

theorem conditions_read_as_written_lineTexts :
    (lineTexts.IsWords ∧ Json.parse? "r1 == \"a\" in r2" = none) ∧
    parse ("\n" ++ lineTexts.text ++ " " ++ "!=" ++ "\t\n" ++ "null" ++ "  ") =
      .ok (.exists lineTexts) ∧
    parse ("\n" ++ lineTexts.text ++ " " ++ "==" ++ "\t\n" ++ "null" ++ "  ") =
      .ok (.missing lineTexts) ∧
    parse ("\n" ++ lineTexts.text ++ " " ++ "in" ++ "\t\n" ++ "\"" ++ " \"a\" == in " ++ "\"" ++
      "  ") = .ok (.contains lineTexts " \"a\" == in ") ∧
    parse ("\n" ++ lineTexts.text ++ " " ++ "==" ++ "\t\n" ++ "r1 == \"a\" in r2" ++ "  ") =
      .ok (.eq lineTexts (.str "r1 == \"a\" in r2")) := by
  have hall : (lineTexts.segments.all fun s => s ≠ "" && s.toList.all isWord) = true := by
    decide +kernel
  have hwords : lineTexts.IsWords :=
    ⟨by decide, fun s hs => by simpa using List.all_eq_true.1 hall s hs⟩
  have hjson : Json.parse? "r1 == \"a\" in r2" = none := by
    rw [← Option.not_isSome_iff_eq_none]
    decide +kernel
  have hblank {s : String} (h : s.toList.all isBlank = true) : s.toList ∈ runs isBlank :=
    List.all_eq_true.1 h
  obtain ⟨hexists, hmissing, hcontains, heq⟩ := conditions_read_as_written.2.2.2 lineTexts "\n" " "
    "\t\n" "  " hwords (hblank (by decide)) (hblank (by decide)) (hblank (by decide))
    (hblank (by decide))
  exact ⟨⟨hwords, hjson⟩, hexists, hmissing, hcontains _ (by decide) (by decide) (by decide),
    heq _ (by decide) (by decide) (by decide) hjson⟩

end Predicate

end Backslice
