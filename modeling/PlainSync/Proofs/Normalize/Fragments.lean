import Mathlib.Data.List.Find
import PlainSync.Proofs.Normalize.TemporaryNames

/-!
# Fragments of normalized text

Normalized text as bytes and names of temporaries, the names counted from the first site that
was free. The scanners that cut and blank an operand never react to the number in a name: they
treat one list of fragments alike at all sites.
-/

namespace PlainSync.Source

open Bytes Reading

/-- A part of a normalized text. -/
inductive Fragment where
  | byte (b : UInt8)
  /-- A temporary of the site that is `offset` sites behind the first free one. -/
  | name (temporary : Temporary) (offset : Nat)
  deriving DecidableEq, Repr

/-- The text of a fragment, the first free site number being `site`. -/
def Fragment.text (site : Nat) : Fragment → Bytes
  | byte b => [b]
  | name temporary offset => temporaryName (site + offset) temporary

/-- The text of fragments, likewise. -/
def textAt (site : Nat) (list : List Fragment) : Bytes := list.flatMap (Fragment.text site)

/-- No fragments make no text. -/
@[simp] theorem textAt_nil (site : Nat) : textAt site [] = [] := rfl

/-- The text of a fragment comes in front of the others. -/
@[simp] theorem textAt_cons (site : Nat) (fragment : Fragment) (list : List Fragment) :
    textAt site (fragment :: list) = fragment.text site ++ textAt site list := rfl

/-- The texts of fragments one behind the other. -/
@[simp] theorem textAt_append (site : Nat) (front back : List Fragment) :
    textAt site (front ++ back) = textAt site front ++ textAt site back := by
  simp [textAt]

/-- A byte is the same at all sites. -/
theorem textAt_byte (site : Nat) (b : UInt8) (list : List Fragment) :
    textAt site (.byte b :: list) = b :: textAt site list := rfl

/-- A reading of fragments gives every name a text that begins with a byte of an identifier. -/
structure Reads (read : Fragment → Bytes) : Prop where
  byte : ∀ b, read (.byte b) = [b]
  name : ∀ temporary offset, ∃ b word,
    read (.name temporary offset) = b :: word ∧ Byte.continuesIdentifier b

/-- A fragment is read byte by byte as its text. -/
theorem reads_text (site : Nat) : Reads (Fragment.text site) where
  byte b := rfl
  name temporary offset := by
    obtain ⟨word, hword⟩ := exists_temporaryName_eq (site + offset) temporary
    exact ⟨Byte.underscore, word, hword, by decide⟩

/-- A fragment is read byte by byte as its text from behind. -/
theorem reads_reverse (site : Nat) : Reads fun fragment => (fragment.text site).reverse where
  byte b := rfl
  name temporary offset := by
    obtain ⟨b, hname, hdigit⟩ := exists_getLast?_temporaryName (site + offset) temporary
    obtain ⟨word, hword⟩ := List.getLast?_eq_some_iff.mp hname
    refine ⟨b, word.reverse, by simp [Fragment.text, hword], ?_⟩
    simp [Byte.continuesIdentifier, Byte.isAlphanumeric, hdigit]

/-- Bytes are read as they are. -/
theorem Reads.flatMap_map_byte {read : Fragment → Bytes} (hread : Reads read) (text : Bytes) :
    (text.map Fragment.byte).flatMap read = text := by
  induction text with
  | nil => rfl
  | cons b rest ih => rw [List.map_cons, List.flatMap_cons, hread.byte, ih, List.singleton_append]

/-- Bytes make up the same text at all sites. -/
theorem textAt_map_byte (site : Nat) (text : Bytes) :
    textAt site (text.map Fragment.byte) = text :=
  (reads_text site).flatMap_map_byte text

/-- The same fragments, counted from a site that is `count` sites in front. -/
def Fragment.delay (count : Nat) : Fragment → Fragment
  | byte b => byte b
  | name temporary offset => name temporary (count + offset)

/-- The text at a later site is that of delayed fragments. -/
theorem textAt_add (site count : Nat) (list : List Fragment) :
    textAt (site + count) list = textAt site (list.map (Fragment.delay count)) := by
  induction list with
  | nil => rw [List.map_nil, textAt_nil, textAt_nil]
  | cons fragment list ih =>
    rw [List.map_cons, textAt_cons, textAt_cons, ih]
    cases fragment with
    | byte b => rfl
    | name temporary offset =>
      rw [Fragment.delay, Fragment.text, Fragment.text, Nat.add_assoc]

/-- The first byte of fragments, which is the same at all sites. -/
def firstByte? : List Fragment → Option UInt8
  | [] => none
  | .byte b :: _ => some b
  | .name _ _ :: _ => some Byte.underscore

/-- The first byte of a text is the same at all sites. -/
theorem head?_textAt (site : Nat) (list : List Fragment) :
    (textAt site list).head? = firstByte? list := by
  match list with
  | [] => rfl
  | .byte b :: more => rfl
  | .name temporary offset :: more =>
    obtain ⟨word, hword⟩ := exists_temporaryName_eq (site + offset) temporary
    rw [textAt_cons, Fragment.text, hword]
    rfl

/-- Line ends of fragments are bytes of their own. -/
theorem newlines_textAt (site : Nat) (list : List Fragment) :
    newlines (textAt site list) = list.count (.byte Byte.newline) := by
  induction list with
  | nil => rfl
  | cons fragment list ih =>
    rw [textAt_cons, newlines_append, ih, List.count_cons, Nat.add_comm]
    cases fragment with
    | byte b => simp [Fragment.text, newlines, List.count_cons]
    | name temporary offset =>
      have hline : newlines (temporaryName (site + offset) temporary) = 0 :=
        newlines_eq_zero_of_all (by decide) (wordBytes_temporaryName _ _)
      simp [Fragment.text, hline]

/-! ## Cuts -/

/-- A function cuts fragments in two at one place, whatever the site is. -/
def CutsAlike (cut : Bytes → Bytes × Bytes) (list : List Fragment) : Prop :=
  ∃ front back, front ++ back = list ∧
    ∀ site, cut (textAt site list) = (textAt site front, textAt site back)

/-- A cut that goes past the first fragment goes on as it does behind it. -/
theorem CutsAlike.cons {cut cut' : Bytes → Bytes × Bytes} {list : List Fragment}
    (hmore : CutsAlike cut' list) (fragment : Fragment)
    (hpast : ∀ site, cut (textAt site (fragment :: list)) =
      (fragment.text site ++ (cut' (textAt site list)).1, (cut' (textAt site list)).2)) :
    CutsAlike cut (fragment :: list) := by
  obtain ⟨front, back, rfl, hcut⟩ := hmore
  refine ⟨fragment :: front, back, rfl, fun site => ?_⟩
  rw [hpast, hcut]
  rfl

/-- A cut in front of everything. -/
theorem CutsAlike.here {cut : Bytes → Bytes × Bytes} {list : List Fragment}
    (hcut : ∀ site, cut (textAt site list) = ([], textAt site list)) : CutsAlike cut list :=
  ⟨[], list, rfl, hcut⟩

/-- A cut behind the first fragment. -/
theorem CutsAlike.next {cut : Bytes → Bytes × Bytes} {fragment : Fragment}
    {list : List Fragment} (hcut : ∀ site,
      cut (textAt site (fragment :: list)) = (fragment.text site, textAt site list)) :
    CutsAlike cut (fragment :: list) :=
  ⟨[fragment], list, rfl, fun site => by rw [hcut site, textAt_cons, textAt_nil, List.append_nil]⟩

/-- Literals end at the same fragment at all sites. -/
theorem splitLiteralBody_cutsAlike {mark : UInt8}
    (hmark : Byte.continuesIdentifier mark = false) :
    ∀ list, CutsAlike (splitLiteralBody mark) list
  | [] => .here fun _ => rfl
  | .name temporary offset :: more =>
    (splitLiteralBody_cutsAlike hmark more).cons _ fun site =>
      splitLiteralBody_word_append _ hmark (wordBytes_temporaryName _ temporary)
  | .byte b :: more => by
    by_cases hescape : b = Byte.backslash
    · subst hescape
      match more with
      | [] => exact .next fun site => rfl
      | .byte c :: more =>
        obtain ⟨front, back, rfl, hcut⟩ := splitLiteralBody_cutsAlike hmark more
        refine ⟨.byte Byte.backslash :: .byte c :: front, back, rfl, fun site => ?_⟩
        rw [textAt_byte, textAt_byte, splitLiteralBody, if_pos rfl]
        simp only [hcut, textAt_byte]
      | .name temporary offset :: more =>
        obtain ⟨front, back, rfl, hcut⟩ := splitLiteralBody_cutsAlike hmark more
        refine ⟨.byte Byte.backslash :: .name temporary offset :: front, back, rfl, fun site => ?_⟩
        -- The backslash takes the first byte of the name along.
        have hname := wordBytes_temporaryName (site + offset) temporary
        obtain ⟨word, hword⟩ := exists_temporaryName_eq (site + offset) temporary
        rw [hword, wordBytes_cons] at hname
        have hbehind := splitLiteralBody_word_append (textAt site (front ++ back)) hmark hname.2
        rw [hcut] at hbehind
        rw [textAt_byte, textAt_byte, textAt_cons, textAt_cons, Fragment.text, hword,
          List.cons_append, splitLiteralBody, if_pos rfl]
        simp only [hbehind, List.cons_append]
    · by_cases hnewline : b = Byte.newline
      · refine .here fun site => ?_
        rw [textAt_byte, splitLiteralBody_cons mark hescape, if_pos hnewline]
      · by_cases hclose : b = mark
        · refine .next fun site => ?_
          rw [textAt_byte, splitLiteralBody_cons mark hescape, if_neg hnewline, if_pos hclose]
          rfl
        · refine (splitLiteralBody_cutsAlike hmark more).cons _ fun site => ?_
          rw [textAt_byte, splitLiteralBody_cons mark hescape, if_neg hnewline, if_neg hclose]
          rfl

/-- Block comments end at the same fragment at all sites. -/
theorem splitBlockCommentBody_cutsAlike :
    ∀ list, CutsAlike splitBlockCommentBody list
  | [] => .here fun _ => rfl
  | .name temporary offset :: more =>
    (splitBlockCommentBody_cutsAlike more).cons _ fun site =>
      splitBlockCommentBody_word_append _ (wordBytes_temporaryName _ temporary)
  | .byte b :: more => by
    by_cases hclose : b = Byte.star ∧ firstByte? more = some Byte.slash
    · obtain ⟨rfl, hslash⟩ := hclose
      match more, hslash with
      | .byte c :: more, hslash =>
        rw [firstByte?, Option.some.injEq] at hslash
        subst hslash
        exact ⟨[.byte Byte.star, .byte Byte.slash], more, rfl, fun site => rfl⟩
    · refine (splitBlockCommentBody_cutsAlike more).cons _ fun site => ?_
      refine splitBlockCommentBody_step (textAt site more) ?_
      rwa [head?_textAt]

/-- Lines end at the same fragment at all sites. -/
theorem splitLine_cutsAlike : ∀ list, CutsAlike splitLine list
  | [] => .here fun _ => rfl
  | .name temporary offset :: more =>
    (splitLine_cutsAlike more).cons _ fun site =>
      splitLine_word_append _ (wordBytes_temporaryName _ temporary)
  | .byte b :: more => by
    by_cases hnewline : b = Byte.newline
    · subst hnewline
      exact .here fun site => rfl
    · refine (splitLine_cutsAlike more).cons _ fun site => ?_
      rw [textAt_byte, splitLine, List.takeWhile_cons_of_pos (by simpa using hnewline),
        List.dropWhile_cons_of_pos (by simpa using hnewline)]
      rfl

/-- Numbers end at the same fragment at all sites. -/
theorem splitNumberBody_cutsAlike :
    ∀ previous list, CutsAlike (splitNumberBody previous) list
  | _, [] => .here fun _ => rfl
  | previous, .name temporary offset :: more => by
    -- Behind a name a number goes on as behind the digit zero.
    refine (splitNumberBody_cutsAlike 48 more).cons _ fun site => ?_
    obtain ⟨last, hname, hdigit⟩ := exists_getLast?_temporaryName (site + offset) temporary
    have hbehind := splitNumberBody_word_append (textAt site more) previous
      (wordBytes_temporaryName (site + offset) temporary)
    have hlast : Byte.isAlphanumeric last = Byte.isAlphanumeric 48 := by
      rw [Byte.isAlphanumeric, hdigit, Bool.or_true]
      decide
    rw [List.getLastD_eq_getLast?, hname, Option.getD_some, splitNumberBody_congr hlast] at hbehind
    exact hbehind
  | previous, .byte b :: more => by
    by_cases hnumber : Byte.continuesIdentifier b ∨ b = Byte.dot ∨
        (b = Byte.quote ∧ Byte.isAlphanumeric previous ∧
          (firstByte? more).any Byte.isAlphanumeric)
    · refine (splitNumberBody_cutsAlike b more).cons _ fun site => ?_
      rw [textAt_byte, splitNumberBody, head?_textAt, if_pos hnumber]
      rfl
    · refine .here fun site => ?_
      rw [textAt_byte, splitNumberBody, head?_textAt, if_neg hnumber]

/-- A comment or literal begins at all sites and ends at one place, or begins at none. -/
theorem splitTrivia?_textAt : ∀ list,
    (∀ site, splitTrivia? (textAt site list) = none) ∨
      ∃ unit behind, unit ++ behind = list ∧ unit ≠ [] ∧
        ∀ site, splitTrivia? (textAt site list) = some (textAt site unit, textAt site behind)
  | [] => .inl fun _ => rfl
  | .name temporary offset :: more => by
    refine .inl fun site => ?_
    obtain ⟨word, hword⟩ := exists_temporaryName_eq (site + offset) temporary
    rw [textAt_cons, Fragment.text, hword, List.cons_append]
    exact splitTrivia?_of_isPlain (by decide) _
  | .byte b :: more => by
    by_cases hslash : b = Byte.slash
    · subst hslash
      match more with
      | [] => exact .inl fun site => rfl
      | .name temporary offset :: more =>
        refine .inl fun site => ?_
        obtain ⟨word, hword⟩ := exists_temporaryName_eq (site + offset) temporary
        rw [textAt_byte, textAt_cons, Fragment.text, hword]
        rfl
      | .byte c :: more =>
        by_cases hstar : c = Byte.star
        · subst hstar
          obtain ⟨front, back, rfl, hcut⟩ := splitBlockCommentBody_cutsAlike more
          refine .inr ⟨.byte Byte.slash :: .byte Byte.star :: front, back, rfl, by simp,
            fun site => ?_⟩
          simp only [textAt_byte, splitTrivia?, if_true, hcut]
        · by_cases hslash : c = Byte.slash
          · subst hslash
            obtain ⟨front, back, rfl, hcut⟩ := splitLine_cutsAlike more
            refine .inr ⟨.byte Byte.slash :: .byte Byte.slash :: front, back, rfl, by simp,
              fun site => ?_⟩
            simp only [textAt_byte, splitTrivia?, if_true, if_neg hstar, hcut]
          · refine .inl fun site => ?_
            simp only [textAt_byte, splitTrivia?, if_true, if_neg hstar, if_neg hslash]
    · by_cases hquote : b = Byte.doubleQuote ∨ b = Byte.quote
      · have hmark : Byte.continuesIdentifier b = false := by
          rcases hquote with rfl | rfl <;> decide
        obtain ⟨front, back, rfl, hcut⟩ := splitLiteralBody_cutsAlike hmark more
        refine .inr ⟨.byte b :: front, back, rfl, by simp, fun site => ?_⟩
        simp only [textAt_byte, splitTrivia?, if_neg hslash, if_pos hquote, splitLiteral, hcut]
      · refine .inl fun site => ?_
        simp only [textAt_byte, splitTrivia?, if_neg hslash, if_neg hquote]

/-! ## Blanking -/

/-- Whether a digit opens a number behind some fragments depends neither on the site nor on what
stands in front of them. -/
theorem exists_opensNumber_textAt {unit : List Fragment} (hunit : unit ≠ []) :
    ∃ opens, ∀ site before, opensNumber ((textAt site unit).reverse ++ before) = opens := by
  obtain ⟨front, last, rfl⟩ : ∃ front last, unit = front ++ [last] :=
    ⟨_, _, (List.dropLast_concat_getLast hunit).symm⟩
  cases last with
  | byte b =>
    refine ⟨opensNumber [b], fun site before => ?_⟩
    simp [textAt, Fragment.text, opensNumber]
  | name temporary offset =>
    refine ⟨false, fun site before => ?_⟩
    obtain ⟨b, hname, hdigit⟩ := exists_getLast?_temporaryName (site + offset) temporary
    obtain ⟨word, hword⟩ := List.getLast?_eq_some_iff.mp hname
    simp [textAt, Fragment.text, hword, opensNumber, Byte.continuesIdentifier,
      Byte.isAlphanumeric, hdigit]

/-- Blanking reads one front of a list of fragments and writes one text for it, whatever the site
is. -/
def StepsAlike (blank : Bytes → Bytes → Bytes) (opens : Bool) (list : List Fragment) : Prop :=
  ∃ unit result behind, unit ++ behind = list ∧ unit ≠ [] ∧ ∀ site before,
    opensNumber before = opens → blank before (textAt site list) =
      textAt site result ++ blank ((textAt site unit).reverse ++ before) (textAt site behind)

/-- Blanking that takes every step alike gives one list of fragments. -/
theorem exists_blank_textAt {blank : Bytes → Bytes → Bytes}
    (hnil : ∀ before, blank before [] = [])
    (hstep : ∀ opens fragment more, StepsAlike blank opens (fragment :: more))
    (opens : Bool) (list : List Fragment) : ∃ blanked, ∀ site before,
      opensNumber before = opens → blank before (textAt site list) = textAt site blanked := by
  match list with
  | [] => exact ⟨[], fun site before _ => hnil before⟩
  | fragment :: more =>
    obtain ⟨unit, result, behind, hlist, hunit, hblank⟩ := hstep opens fragment more
    have hshorter : behind.length < (fragment :: more).length := by
      have hpos := List.length_pos_iff.mpr hunit
      rw [← hlist, List.length_append]
      omega
    obtain ⟨opens', hopens'⟩ := exists_opensNumber_textAt hunit
    obtain ⟨blanked, hbehind⟩ := exists_blank_textAt hnil hstep opens' behind
    refine ⟨result ++ blanked, fun site before hopens => ?_⟩
    rw [hblank site before hopens, hbehind site _ (hopens' site before), textAt_append]
termination_by list.length
decreasing_by exact hshorter

/-- A name is copied. -/
theorem stepsAlike_name {blank : Bytes → Bytes → Bytes}
    (hword : ∀ before word tail, WordBytes word → BeginsWord before word →
      blank before (word ++ tail) = word ++ blank (word.reverse ++ before) tail)
    (opens : Bool) (temporary : Temporary) (offset : Nat) (more : List Fragment) :
    StepsAlike blank opens (.name temporary offset :: more) := by
  refine ⟨[.name temporary offset], [.name temporary offset], more, rfl, by simp,
    fun site before _ => ?_⟩
  have hbegins : BeginsWord before (temporaryName (site + offset) temporary) := by
    obtain ⟨word, hname⟩ := exists_temporaryName_eq (site + offset) temporary
    rw [hname]
    intro b hb hdigit
    cases hb
    exact absurd hdigit (by decide)
  rw [textAt_cons, textAt_cons, textAt_nil, List.append_nil]
  exact hword before _ _ (wordBytes_temporaryName _ temporary) hbegins

/-- A byte is replaced by others. -/
theorem stepsAlike_byte {blank : Bytes → Bytes → Bytes} {opens : Bool} {b : UInt8}
    {more : List Fragment} (result : Bytes) (hblank : ∀ site before, opensNumber before = opens →
      blank before (b :: textAt site more) = result ++ blank (b :: before) (textAt site more)) :
    StepsAlike blank opens (.byte b :: more) := by
  refine ⟨[.byte b], result.map .byte, more, rfl, by simp, fun site before hopens => ?_⟩
  rw [textAt_byte, hblank site before hopens, textAt_map_byte]
  rfl

/-- Line comments are dropped alike at all sites. -/
theorem withoutLineComments_stepsAlike (opens : Bool) :
    ∀ fragment more, StepsAlike withoutLineComments opens (fragment :: more)
  | .name temporary offset, more =>
    stepsAlike_name (fun before word tail => withoutLineComments_word_append tail) _ _ _ _
  | .byte b, more => by
    by_cases hcomment : b = Byte.slash ∧ firstByte? more = some Byte.slash
    · obtain ⟨rfl, hslash⟩ := hcomment
      obtain ⟨line, behind, rfl, hcut⟩ := splitLine_cutsAlike more
      refine ⟨.byte Byte.slash :: line, [.byte Byte.space], behind, rfl, by simp,
        fun site before _ => ?_⟩
      rw [textAt_byte, withoutLineComments_lineComment (by rwa [head?_textAt]), hcut, textAt_byte,
        textAt_byte, List.reverse_cons, List.append_assoc]
      rfl
    · by_cases hnumber : Byte.isDigit b ∧ opens
      · obtain ⟨body, behind, rfl, hcut⟩ := splitNumberBody_cutsAlike b more
        refine ⟨.byte b :: body, .byte b :: body, behind, rfl, by simp,
          fun site before hopens => ?_⟩
        rw [textAt_byte, withoutLineComments_number hnumber.1 (hopens ▸ hnumber.2), hcut,
          textAt_byte, List.reverse_cons, List.append_assoc]
        rfl
      · rcases splitTrivia?_textAt (.byte b :: more) with
          hnone | ⟨unit, behind, hlist, hunit, hsome⟩
        · refine stepsAlike_byte [b] fun site before hopens => ?_
          exact withoutLineComments_byte (by rwa [hopens]) (hnone site)
        · refine ⟨unit, unit, behind, hlist, hunit, fun site before _ => ?_⟩
          have hopen : ¬ (b = Byte.slash ∧ (textAt site more).head? = some Byte.slash) := by
            rwa [head?_textAt]
          exact withoutLineComments_trivia hopen (hsome site)

/-- Lines are joined alike at all sites. -/
theorem onOneLine_stepsAlike (opens : Bool) :
    ∀ fragment more, StepsAlike onOneLine opens (fragment :: more)
  | .name temporary offset, more =>
    stepsAlike_name (fun before word tail => onOneLine_word_append tail) _ _ _ _
  | .byte b, more => by
    by_cases hslash : b = Byte.slash
    · subst hslash
      rcases splitTrivia?_textAt (.byte Byte.slash :: more) with
        hnone | ⟨unit, behind, hlist, hunit, hsome⟩
      · exact stepsAlike_byte [Byte.slash] fun site before _ => onOneLine_slash (hnone site)
      · refine ⟨unit, [.byte Byte.space], behind, hlist, hunit, fun site before _ => ?_⟩
        exact onOneLine_comment (hsome site)
    · by_cases hnumber : Byte.isDigit b ∧ opens
      · obtain ⟨body, behind, rfl, hcut⟩ := splitNumberBody_cutsAlike b more
        refine ⟨.byte b :: body, .byte b :: body, behind, rfl, by simp,
          fun site before hopens => ?_⟩
        rw [textAt_byte, onOneLine_number hnumber.1 (hopens ▸ hnumber.2), hcut, textAt_byte,
          List.reverse_cons, List.append_assoc]
        rfl
      · by_cases hquote : b = Byte.doubleQuote ∨ b = Byte.quote
        · have hmark : Byte.continuesIdentifier b = false := by
            rcases hquote with rfl | rfl <;> decide
          obtain ⟨body, behind, rfl, hcut⟩ := splitLiteralBody_cutsAlike hmark more
          refine ⟨.byte b :: body, .byte b :: body, behind, rfl, by simp, fun site before _ => ?_⟩
          rw [textAt_byte, onOneLine_literal hquote, hcut, textAt_byte, List.reverse_cons,
            List.append_assoc]
          rfl
        · by_cases hbreak : b = Byte.backslash ∧ (firstByte? more).any Byte.breaksLine ∨
              Byte.breaksLine b
          · refine stepsAlike_byte [Byte.space] fun site before _ => ?_
            exact onOneLine_break (by rwa [head?_textAt])
          · refine stepsAlike_byte [b] fun site before hopens => ?_
            exact onOneLine_byte hslash (by rwa [hopens]) hquote (by rwa [head?_textAt])

/-! ## Trimming -/

/-- What a pattern matches is bytes. -/
theorem matches_flatMap {read : Fragment → Bytes} (hread : Reads read) {pattern : Bytes}
    (hpattern : Wordless pattern) (list : List Fragment) :
    pattern <+: list.flatMap read ↔ pattern.map Fragment.byte <+: list := by
  induction pattern generalizing list with
  | nil => simp
  | cons c pattern ih =>
    have hmore : Wordless pattern := fun b hb => hpattern b (List.mem_cons_of_mem c hb)
    match list with
    | [] => simp
    | .byte b :: more =>
      rw [List.flatMap_cons, hread.byte, List.singleton_append, List.map_cons,
        List.cons_prefix_cons, List.cons_prefix_cons, ih hmore, Fragment.byte.injEq]
    | .name temporary offset :: more =>
      obtain ⟨b, word, hname, hb⟩ := hread.name temporary offset
      have hne : c ≠ b := by
        rintro rfl
        rw [hpattern c List.mem_cons_self] at hb
        cases hb
      rw [List.flatMap_cons, hname, List.cons_append, List.map_cons, List.cons_prefix_cons,
        List.cons_prefix_cons]
      simp [hne]

/-- The same fragments are dropped from the front, however names are read. -/
theorem exists_dropLeading_flatMap {patterns : List Bytes}
    (hpatterns : ∀ pattern ∈ patterns, Wordless pattern) (list : List Fragment) :
    ∃ rest, ∀ read, Reads read →
      dropLeading patterns (list.flatMap read) = List.flatMap read rest := by
  have hfind (read : Fragment → Bytes) (hread : Reads read) :
      (patterns.find? fun pattern => !pattern.isEmpty && pattern.isPrefixOf (list.flatMap read)) =
        patterns.find? fun pattern =>
          !pattern.isEmpty && (pattern.map Fragment.byte).isPrefixOf list := by
    refine List.find?_congr fun pattern hmem => ?_
    rw [Bool.eq_iff_iff, Bool.and_eq_true, Bool.and_eq_true, List.isPrefixOf_iff_prefix,
      List.isPrefixOf_iff_prefix, matches_flatMap hread (hpatterns pattern hmem)]
  cases hfound : patterns.find? fun pattern =>
      !pattern.isEmpty && (pattern.map Fragment.byte).isPrefixOf list with
  | none =>
    refine ⟨list, fun read hread => ?_⟩
    have hnone := hfind read hread
    rw [hfound] at hnone
    rw [dropLeading]
    split
    · next found =>
      rw [hnone] at found
      cases found
    · rfl
  | some pattern =>
    have hmatch := List.find?_some hfound
    rw [Bool.and_eq_true, List.isPrefixOf_iff_prefix] at hmatch
    obtain ⟨behind, hbehind⟩ := hmatch.2
    have hshorter : behind.length < list.length := by
      rw [← hbehind, List.length_append, List.length_map]
      have hpos : 0 < pattern.length := by
        cases pattern with
        | nil => cases hmatch.1
        | cons b rest => exact Nat.succ_pos _
      omega
    obtain ⟨rest, hrest⟩ := exists_dropLeading_flatMap hpatterns behind
    refine ⟨rest, fun read hread => ?_⟩
    have hsome := hfind read hread
    rw [hfound] at hsome
    rw [dropLeading]
    split
    · next found =>
      rw [hsome] at found
      cases found
      rw [← hbehind, List.flatMap_append, hread.flatMap_map_byte, List.drop_left]
      exact hrest read hread
    · next found =>
      rw [hsome] at found
      cases found
termination_by list.length

/-- Texts are trimmed alike at all sites. -/
theorem exists_trim_textAt (list : List Fragment) :
    ∃ rest, ∀ site, (textAt site list).trim = textAt site rest := by
  obtain ⟨hpatterns, hreversed⟩ := wordless_blankEncodings
  obtain ⟨front, hfront⟩ := exists_dropLeading_flatMap hpatterns list
  obtain ⟨rest, hrest⟩ := exists_dropLeading_flatMap hreversed front.reverse
  refine ⟨rest.reverse, fun site => ?_⟩
  have hstart : (textAt site list).trimStart = textAt site front :=
    hfront (Fragment.text site) (reads_text site)
  have hend := hrest _ (reads_reverse site)
  have hreverse (list : List Fragment) : (textAt site list).reverse =
      list.reverse.flatMap fun fragment => (fragment.text site).reverse :=
    List.reverse_flatMap
  rw [trim, hstart, trimEnd, hreverse, hend, ← List.reverse_reverse rest, ← hreverse,
    List.reverse_reverse, List.reverse_reverse]

/-! ## Operands -/

/-- A text without line comments has the same fragments at all sites. -/
theorem exists_withoutLineComments_textAt (list : List Fragment) :
    ∃ blanked, ∀ site, withoutLineComments [] (textAt site list) = textAt site blanked := by
  obtain ⟨blanked, hblanked⟩ := exists_blank_textAt (fun before => by rw [withoutLineComments])
    withoutLineComments_stepsAlike (opensNumber []) list
  exact ⟨blanked, fun site => hblanked site [] rfl⟩

/-- A text on one line has the same fragments at all sites. -/
theorem exists_onOneLine_textAt (list : List Fragment) :
    ∃ blanked, ∀ site, onOneLine [] (textAt site list) = textAt site blanked := by
  obtain ⟨blanked, hblanked⟩ := exists_blank_textAt (fun before => by rw [onOneLine])
    onOneLine_stepsAlike (opensNumber []) list
  exact ⟨blanked, fun site => hblanked site [] rfl⟩

/-- The text of an operand has the same fragments at all sites. -/
theorem exists_operandText_textAt (list : List Fragment) :
    ∃ operand, ∀ site, operandText (textAt site list) = textAt site operand := by
  obtain ⟨trimmed, htrimmed⟩ := exists_trim_textAt list
  obtain ⟨blanked, hblanked⟩ := exists_withoutLineComments_textAt trimmed
  obtain ⟨operand, hoperand⟩ := exists_trim_textAt blanked
  exact ⟨operand, fun site => by rw [operandText, htrimmed, hblanked, hoperand]⟩

end PlainSync.Source
