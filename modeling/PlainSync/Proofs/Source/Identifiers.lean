import PlainSync.Proofs.Source.PastWords
import PlainSync.Proofs.Source.Words

/-!
# Identifiers of a text

The identifiers of a text are its longest runs of identifier bytes, those of comments and
literals included. Trimming and blanking take text away and put spaces in its place, so they
never make an identifier that the text does not have.
-/

namespace PlainSync.Source

open Bytes

/-- The longest runs of identifier bytes in a text, with empty runs between other bytes. -/
def wordsOf (text : Bytes) : List Bytes := text.splitOnP fun b => !Byte.continuesIdentifier b

/-- The empty text has the empty word only. -/
theorem wordsOf_nil : wordsOf [] = [[]] := List.splitOnP_nil

/-- A byte that stands in no identifier separates the words in front of it from those behind. -/
theorem mem_wordsOf_append_cons {b : UInt8} (hb : Byte.continuesIdentifier b = false)
    {front back word : Bytes} :
    word ∈ wordsOf (front ++ b :: back) ↔ word ∈ wordsOf front ∨ word ∈ wordsOf back := by
  rw [wordsOf, List.splitOnP_append_cons _ _ (by rw [hb]; rfl), List.mem_append]
  rfl

/-- A word has no other words. -/
theorem wordsOf_of_wordBytes {text : Bytes} (htext : WordBytes text) : wordsOf text = [text] :=
  List.splitOnP_eq_singleton fun b hb => by rw [htext b hb]; rfl

/-- Where no identifier goes on, the words in front and behind are those of the whole. -/
theorem mem_wordsOf_append {front back word : Bytes} (hends : WordsEnd front.reverse back)
    (hword : word ≠ []) :
    word ∈ wordsOf (front ++ back) ↔ word ∈ wordsOf front ∨ word ∈ wordsOf back := by
  rcases List.eq_nil_or_concat front with rfl | ⟨before, c, hfront⟩
  · simp [wordsOf_nil, hword]
  · rw [List.concat_eq_append] at hfront
    subst hfront
    cases back with
    | nil => simp [wordsOf_nil, hword]
    | cons b behind =>
      have hone : Byte.continuesIdentifier c = false ∨ Byte.continuesIdentifier b = false := by
        cases hc : Byte.continuesIdentifier c with
        | false => exact .inl rfl
        | true => exact .inr (hends c (by simp) b rfl hc)
      rcases hone with hc | hb
      · have hlast := @mem_wordsOf_append_cons c hc before [] word
        rw [List.append_assoc, List.singleton_append, mem_wordsOf_append_cons hc, hlast]
        simp [wordsOf_nil, hword]
      · have hfirst := @mem_wordsOf_append_cons b hb [] behind word
        rw [mem_wordsOf_append_cons hb, ← List.nil_append (b :: behind), hfirst]
        simp [wordsOf_nil, hword]

/-- No identifier goes on behind a text without words. -/
theorem wordsEnd_of_wordless {front : Bytes} (hfront : Wordless front) (back : Bytes) :
    WordsEnd front.reverse back := by
  intro b hb c _ hjoins
  rw [hfront b (List.mem_reverse.mp (List.mem_of_mem_head? hb))] at hjoins
  cases hjoins

/-- Text without a byte of an identifier has no words. -/
theorem eq_nil_of_mem_wordsOf {text word : Bytes} (htext : Wordless text)
    (hmem : word ∈ wordsOf text) : word = [] := by
  induction text with
  | nil => simpa [wordsOf_nil] using hmem
  | cons b rest ih =>
    rw [← List.nil_append (b :: rest), mem_wordsOf_append_cons (htext b List.mem_cons_self)] at hmem
    rcases hmem with hnil | hrest
    · simpa [wordsOf_nil] using hnil
    · exact ih (fun c hc => htext c (List.mem_cons_of_mem b hc)) hrest

/-! ## Blanking -/

/-- A text has only the words of another, whatever stands in front of both. -/
def NoNewWords (text original : Bytes) : Prop :=
  ∀ front, ∀ word ∈ wordsOf (front ++ text), word ≠ [] → word ∈ wordsOf (front ++ original)

namespace NoNewWords

variable {text original : Bytes}

/-- A text adds no word to its own. -/
theorem refl (text : Bytes) : NoNewWords text text := fun _ _ hmem _ => hmem

/-- A front may be copied. -/
theorem append (hsame : NoNewWords text original) (part : Bytes) :
    NoNewWords (part ++ text) (part ++ original) := by
  intro front word hmem hword
  rw [← List.append_assoc] at hmem ⊢
  exact hsame (front ++ part) word hmem hword

/-- A front that begins with a byte of no identifier may be replaced by a space. -/
theorem blank (hsame : NoNewWords text original) {b : UInt8} {part : Bytes}
    (hb : Byte.continuesIdentifier b = false) (hends : WordsEnd part.reverse original) :
    NoNewWords (Byte.space :: text) (b :: part ++ original) := by
  intro front word hmem hword
  rw [mem_wordsOf_append_cons (by decide)] at hmem
  rw [List.cons_append, mem_wordsOf_append_cons hb, mem_wordsOf_append hends hword]
  exact hmem.imp_right fun hbehind => .inr (hsame [] word hbehind hword)

end NoNewWords

/-- No identifier goes on with a newline. -/
theorem wordsEnd_of_newline {before text : Bytes} (htext : ∀ c ∈ text.head?, c = Byte.newline) :
    WordsEnd before text := by
  intro b _ c hc _
  rw [htext c hc]
  decide

/-- No identifier goes on behind a comment or literal. -/
theorem wordsEnd_of_splitTrivia? {b : UInt8} {rest part behind : Bytes}
    (htrivia : splitTrivia? (b :: rest) = some (b :: part, behind)) :
    WordsEnd part.reverse behind := by
  rcases splitTrivia?_end htrivia with hnewline | ⟨last, hlast, hends⟩
  · exact wordsEnd_of_newline hnewline
  · intro c hc d _ hjoins
    rw [List.head?_reverse] at hc
    rw [List.getLast?_cons, Option.mem_def.mp hc] at hlast
    cases hlast
    rcases hends with rfl | rfl | rfl <;> cases hjoins

/-- Dropping line comments adds no word. -/
theorem withoutLineComments_noNewWords (before text : Bytes) :
    NoNewWords (withoutLineComments before text) text := by
  fun_induction withoutLineComments before text with
  | case1 before => exact .refl []
  | case2 before b rest hcomment ih =>
    have hb : Byte.continuesIdentifier b = false := by
      rw [hcomment.1]
      decide
    have hblank := ih.blank hb (wordsEnd_of_newline (splitLine_end rest) :
      WordsEnd (splitLine rest).1.reverse _)
    rwa [List.cons_append, splitLine_append] at hblank
  | case3 before b rest hcomment hdigit body ih =>
    have hcopy := ih.append body
    rw [splitNumberBody_append] at hcopy
    exact hcopy.append [b]
  | case4 before b rest hcomment hnumber unit behind htrivia ih =>
    have hcopy := ih.append unit
    rwa [append_of_splitTrivia? htrivia] at hcopy
  | case5 before b rest hcomment hnumber htrivia ih => exact ih.append [b]

/-- Joining lines adds no word. -/
theorem onOneLine_noNewWords (before text : Bytes) : NoNewWords (onOneLine before text) text := by
  fun_induction onOneLine before text with
  | case1 before => exact .refl []
  | case2 before rest unit behind htrivia ih =>
    have hwhole := append_of_splitTrivia? htrivia
    obtain ⟨b, part, rfl⟩ := List.exists_cons_of_length_pos (length_pos_of_splitTrivia? htrivia)
    obtain ⟨rfl, rfl⟩ := List.cons.inj hwhole
    exact ih.blank (by decide) (wordsEnd_of_splitTrivia? htrivia)
  | case3 before rest htrivia ih => exact ih.append [Byte.slash]
  | case4 before b rest hslash hdigit body ih =>
    have hcopy := ih.append body
    rw [splitNumberBody_append] at hcopy
    exact hcopy.append [b]
  | case5 before b rest hslash hdigit hquote body ih =>
    have hcopy := ih.append body
    rw [splitLiteralBody_append] at hcopy
    exact hcopy.append [b]
  | case6 before b rest hslash hdigit hquote hescape ih =>
    have hb : Byte.continuesIdentifier b = false := by
      rw [hescape.1]
      decide
    exact ih.blank hb (wordsEnd_of_wordless wordless_nil rest)
  | case7 before b rest hslash hdigit hquote hescape hbreaks ih =>
    have hb : Byte.continuesIdentifier b = false := by
      simp only [Byte.breaksLine, Bool.or_eq_true, decide_eq_true_eq] at hbreaks
      rcases hbreaks with rfl | rfl <;> decide
    exact ih.blank hb (wordsEnd_of_wordless wordless_nil rest)
  | case8 before b rest hslash hdigit hquote hescape hbreaks ih => exact ih.append [b]

/-! ## Trimming -/

/-- A trimmed text has only the words of the text. -/
theorem mem_wordsOf_of_trim {text word : Bytes} (hmem : word ∈ wordsOf text.trim)
    (hword : word ≠ []) : word ∈ wordsOf text := by
  obtain ⟨front, back, hfront, hback, hwhole⟩ := exists_trim_eq wordless_blankEncodings.1 text
  have hends : WordsEnd text.trim.reverse back := by
    intro c _ d hd _
    exact hback d (List.mem_of_mem_head? hd)
  rw [← hwhole, mem_wordsOf_append (wordsEnd_of_wordless hfront _) hword,
    mem_wordsOf_append hends hword]
  exact .inr (.inl hmem)

/-! ## Operands -/

/-- A word of a text without line comments is one of the text. -/
theorem mem_wordsOf_of_withoutLineComments {text word : Bytes}
    (hmem : word ∈ wordsOf (withoutLineComments [] text)) (hword : word ≠ []) :
    word ∈ wordsOf text :=
  withoutLineComments_noNewWords [] text [] word hmem hword

/-- A word of a text on one line is one of the text. -/
theorem mem_wordsOf_of_onOneLine {text word : Bytes} (hmem : word ∈ wordsOf (onOneLine [] text))
    (hword : word ≠ []) : word ∈ wordsOf text :=
  onOneLine_noNewWords [] text [] word hmem hword

/-- A word of an operand is one of what it is rendered from. -/
theorem mem_wordsOf_of_operandText {rendered word : Bytes}
    (hmem : word ∈ wordsOf (operandText rendered)) (hword : word ≠ []) :
    word ∈ wordsOf rendered :=
  mem_wordsOf_of_trim (mem_wordsOf_of_withoutLineComments (mem_wordsOf_of_trim hmem hword) hword)
    hword

/-- The commas around an argument stand in no identifier. -/
theorem mem_wordsOf_of_argument {list : ArgumentList} {argument word : Bytes}
    (hargument : argument ∈ list.arguments) (hmem : word ∈ wordsOf argument) (hword : word ≠ []) :
    word ∈ wordsOf list.inside := by
  have hcases : argument = list.first ∨ argument ∈ list.more := by
    unfold ArgumentList.arguments at hargument
    split at hargument
    · cases hargument
    · simpa using hargument
  have hcomma (stretches : List Bytes) : ∀ front : Bytes,
      WordsEnd front.reverse (stretches.flatMap (Byte.comma :: ·)) := by
    intro front b _ c hc _
    cases stretches with
    | nil => cases hc
    | cons stretch stretches =>
      cases hc
      decide
  have hmore (stretches : List Bytes) (hstretch : argument ∈ stretches) :
      word ∈ wordsOf (stretches.flatMap (Byte.comma :: ·)) := by
    induction stretches with
    | nil => cases hstretch
    | cons stretch stretches ih =>
      have hfirst := @mem_wordsOf_append_cons Byte.comma (by decide) []
        (stretch ++ stretches.flatMap (Byte.comma :: ·)) word
      rw [List.nil_append, mem_wordsOf_append (hcomma stretches stretch) hword] at hfirst
      rw [List.flatMap_cons, List.cons_append, hfirst]
      rcases List.mem_cons.mp hstretch with rfl | hrest
      · exact .inr (.inl hmem)
      · exact .inr (.inr (ih hrest))
  rw [ArgumentList.inside, mem_wordsOf_append (hcomma list.more list.first) hword]
  rcases hcases with rfl | hrest
  · exact .inl hmem
  · exact .inr (hmore list.more hrest)

end PlainSync.Source
