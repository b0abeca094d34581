import PlainSync.Proofs.Source.Outline
import PlainSync.Normalize

/-!
# Line ends of blanked text

Trimming takes line ends away, dropping line comments takes none. Text that is put on one
line keeps a line end only where a backslash stands in front of it in a literal.
-/

namespace PlainSync

open Bytes

/-- The newlines of the first byte and of the others. -/
theorem newlines_cons (b : UInt8) (rest : Bytes) :
    newlines (b :: rest) = newlines [b] + newlines rest :=
  newlines_append [b] rest

/-- A part of a text has no more newlines than the text. -/
theorem newlines_infix_le {part text : Bytes} (hpart : part <:+: text) :
    newlines part ≤ newlines text :=
  hpart.sublist.count_le Byte.newline

/-! ## Trimming -/

/-- Without what leads it a text is the end of itself. -/
theorem suffix_dropLeading (patterns : List Bytes) (text : Bytes) :
    dropLeading patterns text <:+ text := by
  fun_induction dropLeading patterns text with
  | case1 text pattern hfound ih => exact ih.trans (List.drop_suffix pattern.length text)
  | case2 text hnone => exact List.suffix_rfl

/-- Without the blanks behind it a text is the beginning of itself. -/
theorem prefix_trimEnd (text : Bytes) : text.trimEnd <+: text := by
  have hsuffix := suffix_dropLeading (blankEncodings.map List.reverse) text.reverse
  have hreverse := List.reverse_prefix.mpr hsuffix
  rwa [List.reverse_reverse] at hreverse

/-- A trimmed text is a part of the text. -/
theorem infix_trim (text : Bytes) : text.trim <:+: text :=
  (prefix_trimEnd text.trimStart).isInfix.trans
    (suffix_dropLeading blankEncodings text).isInfix

/-- What is dropped from the front is made of bytes of the patterns. -/
theorem exists_dropLeading_eq {p : UInt8 → Prop} {patterns : List Bytes}
    (hpatterns : ∀ pattern ∈ patterns, ∀ b ∈ pattern, p b) (text : Bytes) :
    ∃ front, (∀ b ∈ front, p b) ∧ front ++ dropLeading patterns text = text := by
  fun_induction dropLeading patterns text with
  | case1 text pattern hfound ih =>
    obtain ⟨front, hfront, hwhole⟩ := ih
    have hmatch := List.find?_some hfound
    rw [Bool.and_eq_true, List.isPrefixOf_iff_prefix] at hmatch
    obtain ⟨behind, rfl⟩ := hmatch.2
    rw [List.drop_left] at hwhole ⊢
    refine ⟨pattern ++ front, fun b hb => ?_, by rw [List.append_assoc, hwhole]⟩
    rcases List.mem_append.mp hb with hb | hb
    · exact hpatterns pattern (List.mem_of_find?_eq_some hfound) b hb
    · exact hfront b hb
  | case2 text hnone => exact ⟨[], fun b hb => absurd hb List.not_mem_nil, rfl⟩

/-- What is trimmed from both ends is made of bytes of blank characters. -/
theorem exists_trim_eq {p : UInt8 → Prop} (hblank : ∀ pattern ∈ blankEncodings, ∀ b ∈ pattern, p b)
    (text : Bytes) :
    ∃ front back, (∀ b ∈ front, p b) ∧ (∀ b ∈ back, p b) ∧ front ++ (text.trim ++ back) = text := by
  have hreversed : ∀ pattern ∈ blankEncodings.map List.reverse, ∀ b ∈ pattern, p b := by
    intro pattern hpattern b hb
    obtain ⟨encoding, hencoding, rfl⟩ := List.mem_map.mp hpattern
    exact hblank encoding hencoding b (List.mem_reverse.mp hb)
  obtain ⟨front, hfront, hstart⟩ := exists_dropLeading_eq hblank text
  obtain ⟨back, hback, hend⟩ := exists_dropLeading_eq hreversed text.trimStart.reverse
  refine ⟨front, back.reverse, hfront, fun b hb => hback b (List.mem_reverse.mp hb), ?_⟩
  have hwhole : text.trim ++ back.reverse = text.trimStart := by
    rw [← List.reverse_inj, List.reverse_append, List.reverse_reverse, trim, trimEnd,
      List.reverse_reverse, hend]
  rw [hwhole]
  exact hstart

/-- No pattern is left at the front. -/
theorem find?_dropLeading (patterns : List Bytes) (text : Bytes) :
    (patterns.find? fun pattern =>
      !pattern.isEmpty && pattern.isPrefixOf (dropLeading patterns text)) = none := by
  fun_induction dropLeading patterns text with
  | case1 text pattern hfound ih => exact ih
  | case2 text hnone => exact hnone

/-- Nothing is dropped from the front of a text whose front is kept. -/
theorem dropLeading_of_prefix {patterns : List Bytes} {part text : Bytes}
    (hpart : part <+: dropLeading patterns text) : dropLeading patterns part = part := by
  rw [dropLeading]
  split
  · next pattern hfound =>
    have hpattern := List.find?_some hfound
    rw [Bool.and_eq_true, List.isPrefixOf_iff_prefix] at hpattern
    have hnone := List.find?_eq_none.mp (find?_dropLeading patterns text) pattern
      (List.mem_of_find?_eq_some hfound)
    rw [Bool.and_eq_true, List.isPrefixOf_iff_prefix] at hnone
    exact absurd ⟨hpattern.1, hpattern.2.trans hpart⟩ hnone
  · rfl

/-- A trimmed text has nothing to trim. -/
theorem trim_trim (text : Bytes) : text.trim.trim = text.trim := by
  have hstart : text.trim.trimStart = text.trim :=
    dropLeading_of_prefix (prefix_trimEnd text.trimStart)
  have hend : text.trim.trimEnd = text.trim := by
    have hsame := dropLeading_of_prefix (List.prefix_rfl :
      dropLeading (blankEncodings.map List.reverse) text.trimStart.reverse <+: _)
    rw [trimEnd, trim, trimEnd, List.reverse_reverse, hsame]
  rw [trim, hstart, hend]

namespace Source

/-! ## Line comments -/

/-- A line has no newline. -/
theorem newlines_splitLine (text : Bytes) : newlines (splitLine text).1 = 0 :=
  newlines_eq_zero_of_all (p := (· ≠ Byte.newline)) (by decide)
    (List.all_eq_true.mp List.all_takeWhile)

/-- Dropping the line comments of a text leaves its line ends. -/
theorem newlines_withoutLineComments (before text : Bytes) :
    newlines (withoutLineComments before text) = newlines text := by
  fun_induction withoutLineComments before text with
  | case1 before => rfl
  | case2 before b rest hcomment ih =>
    have hline := newlines_splitLine rest
    have hwhole := newlines_append (splitLine rest).1 (splitLine rest).2
    rw [splitLine_append] at hwhole
    have hb : b ≠ Byte.newline := by rw [hcomment.1]; decide
    rw [newlines_cons_of_ne (by decide), newlines_cons_of_ne hb, ih, hwhole, hline, Nat.zero_add]
  | case3 before b rest hcomment hdigit body ih =>
    have hwhole := newlines_append (splitNumberBody b rest).1 (splitNumberBody b rest).2
    rw [splitNumberBody_append] at hwhole
    rw [List.cons_append, newlines_cons b, newlines_append, ih, newlines_cons b rest, hwhole]
  | case4 before b rest hcomment hnumber unit behind htrivia ih =>
    rw [newlines_append, ih, ← newlines_append, append_of_splitTrivia? htrivia]
  | case5 before b rest hcomment hnumber htrivia ih =>
    rw [newlines_cons b, newlines_cons b rest, ih]

/-- An operand has no more line ends than what it is rendered from. -/
theorem newlines_operandText_le (rendered : Bytes) :
    newlines (operandText rendered) ≤ newlines rendered := by
  have htrim := newlines_infix_le (infix_trim (withoutLineComments [] rendered.trim))
  rw [newlines_withoutLineComments] at htrim
  exact Nat.le_trans htrim (newlines_infix_le (infix_trim rendered))

/-! ## Splices -/

/-- A backslash stands directly in front of a line end. -/
def Spliced (text : Bytes) : Prop := [Byte.backslash, Byte.newline] <:+: text

instance (text : Bytes) : Decidable (Spliced text) :=
  inferInstanceAs (Decidable ([Byte.backslash, Byte.newline] <:+: text))

/-- A text with a spliced part is spliced. -/
theorem Spliced.mono {part text : Bytes} (hsplice : Spliced part) (hpart : part <:+: text) :
    Spliced text :=
  List.IsInfix.trans hsplice hpart

/-- The end of a text without splices has none. -/
theorem not_spliced_of_append {front back : Bytes} (hsplice : ¬ Spliced (front ++ back)) :
    ¬ Spliced back :=
  fun hback => hsplice (hback.mono (List.suffix_append front back).isInfix)

/-- A text without splices has none behind its first byte. -/
theorem not_spliced_of_cons {b : UInt8} {rest : Bytes} (hsplice : ¬ Spliced (b :: rest)) :
    ¬ Spliced rest :=
  @not_spliced_of_append [b] rest hsplice

/-- A literal has a line end only behind a backslash. -/
theorem newlines_splitLiteralBody {mark : UInt8} {text : Bytes} (hsplice : ¬ Spliced text) :
    newlines (splitLiteralBody mark text).1 = 0 := by
  fun_induction splitLiteralBody mark text with
  | case1 => rfl
  | case2 => decide
  | case3 c rest body behind hbody ih =>
    have hc : c ≠ Byte.newline := by
      rintro rfl
      exact hsplice ⟨[], rest, rfl⟩
    rw [hbody] at ih
    rw [newlines_cons_of_ne (by decide), newlines_cons_of_ne hc]
    exact ih (not_spliced_of_cons (not_spliced_of_cons hsplice))
  | case4 => rfl
  | case5 rest hescape hnewline => rw [newlines_cons_of_ne hnewline]; rfl
  | case6 b rest hescape hnewline hmark body behind hbody ih =>
    rw [hbody] at ih
    rw [newlines_cons_of_ne hnewline]
    exact ih (not_spliced_of_cons hsplice)

/-- Text without splices has no line end once it is put on one line. -/
theorem newlines_onOneLine {before text : Bytes} (hsplice : ¬ Spliced text) :
    newlines (onOneLine before text) = 0 := by
  fun_induction onOneLine before text with
  | case1 before => rfl
  | case2 before rest unit behind htrivia ih =>
    rw [newlines_cons_of_ne (by decide)]
    rw [← append_of_splitTrivia? htrivia] at hsplice
    exact ih (not_spliced_of_append hsplice)
  | case3 before rest htrivia ih =>
    rw [newlines_cons_of_ne (by decide)]
    exact ih (not_spliced_of_cons hsplice)
  | case4 before b rest hslash hdigit body ih =>
    have hb : b ≠ Byte.newline := by
      rintro rfl
      exact absurd hdigit.1 (by decide)
    have hrest := not_spliced_of_cons hsplice
    rw [← splitNumberBody_append b rest] at hrest
    rw [List.cons_append, newlines_cons_of_ne hb, newlines_append,
      ih (not_spliced_of_append hrest), newlines_splitNumberBody]
  | case5 before b rest hslash hdigit hquote body ih =>
    have hb : b ≠ Byte.newline := by
      rcases hquote with rfl | rfl <;> decide
    have hrest := not_spliced_of_cons hsplice
    have hbody : newlines body = 0 := newlines_splitLiteralBody hrest
    rw [← splitLiteralBody_append b rest] at hrest
    rw [List.cons_append, newlines_cons_of_ne hb, newlines_append, hbody,
      ih (not_spliced_of_append hrest)]
  | case6 before b rest hslash hdigit hquote hescape ih =>
    rw [newlines_cons_of_ne (by decide)]
    exact ih (not_spliced_of_cons hsplice)
  | case7 before b rest hslash hdigit hquote hescape hbreaks ih =>
    rw [newlines_cons_of_ne (by decide)]
    exact ih (not_spliced_of_cons hsplice)
  | case8 before b rest hslash hdigit hquote hescape hbreaks ih =>
    have hb : b ≠ Byte.newline := by
      rintro rfl
      exact hbreaks (by decide)
    rw [newlines_cons_of_ne hb]
    exact ih (not_spliced_of_cons hsplice)

end Source

end PlainSync
