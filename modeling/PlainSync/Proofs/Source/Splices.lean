import PlainSync.Proofs.Source.Separators
import PlainSync.Proofs.Source.Words

/-!
# Spliced lines

A backslash directly before a line end splices the two lines: C deletes both bytes before it
delimits comments, literals and directives. Where a comment or literal has no splice at its ends,
it is the same unit without its splices.
-/

namespace PlainSync.Source

open Bytes

/-- A text without its splices: a backslash directly before a line end goes with it. -/
def unspliced : Bytes → Bytes
  | [] => []
  | [b] => [b]
  | b :: c :: rest =>
    if b = Byte.backslash ∧ c = Byte.newline then unspliced rest else b :: unspliced (c :: rest)

/-- Where the bytes of the text without its splices stand in the text. -/
def origin : Bytes → Nat → Nat
  | [], index => index
  | [_], index => index
  | b :: c :: rest, index =>
    if b = Byte.backslash ∧ c = Byte.newline then origin rest index + 2
    else if index = 0 then 0
    else origin (c :: rest) (index - 1) + 1

/-- A splice stands where one text ends and the other begins. -/
def SplicedAt (front back : Bytes) : Prop :=
  front.getLast? = some Byte.backslash ∧ back.head? = some Byte.newline

instance (front back : Bytes) : Decidable (SplicedAt front back) :=
  inferInstanceAs (Decidable (_ ∧ _))

section Append

variable {front back rest : Bytes} {b c : UInt8}

/-- Whether two bytes are a splice decides whether they are dropped. -/
theorem unspliced_cons_cons (b c : UInt8) (rest : Bytes) :
    unspliced (b :: c :: rest) =
      if b = Byte.backslash ∧ c = Byte.newline then unspliced rest
      else b :: unspliced (c :: rest) := by
  rw [unspliced]

/-- Whether two bytes are a splice decides where the others come from. -/
theorem origin_cons_cons (b c : UInt8) (rest : Bytes) (index : Nat) :
    origin (b :: c :: rest) index =
      if b = Byte.backslash ∧ c = Byte.newline then origin rest index + 2
      else if index = 0 then 0
      else origin (c :: rest) (index - 1) + 1 := by
  rw [origin]

/-- Bytes that are not spliced are no splice. -/
theorem not_splice_of_not_splicedAt (hsplice : ¬ SplicedAt [b] (c :: rest)) :
    ¬ (b = Byte.backslash ∧ c = Byte.newline) := by
  rintro ⟨rfl, rfl⟩
  exact hsplice ⟨rfl, rfl⟩

/-- A splice stays one behind one more byte. -/
theorem SplicedAt.cons (hsplice : SplicedAt front back) (b : UInt8) :
    SplicedAt (b :: front) back := by
  refine ⟨?_, hsplice.2⟩
  rw [List.getLast?_cons, hsplice.1]
  rfl

/-- Splices are dropped on either side of a place where none stands. -/
theorem unspliced_append (hsplice : ¬ SplicedAt front back) :
    unspliced (front ++ back) = unspliced front ++ unspliced back := by
  induction front using unspliced.induct with
  | case1 => rfl
  | case2 b =>
    cases back with
    | nil => rfl
    | cons c rest =>
      rw [List.singleton_append, unspliced_cons_cons, if_neg (not_splice_of_not_splicedAt hsplice)]
      rfl
  | case3 b c rest hhead ih =>
    rw [List.cons_append, List.cons_append, unspliced_cons_cons, unspliced_cons_cons,
      if_pos hhead, if_pos hhead, ih fun hrest => hsplice ((hrest.cons c).cons b)]
  | case4 b c rest hhead ih =>
    rw [List.cons_append, List.cons_append, unspliced_cons_cons, unspliced_cons_cons,
      if_neg hhead, if_neg hhead, ← List.cons_append, ih fun hrest => hsplice (hrest.cons b),
      List.cons_append]

/-- A byte that begins no splice stays in front. -/
theorem unspliced_cons (hsplice : ¬ SplicedAt [b] rest) :
    unspliced (b :: rest) = b :: unspliced rest :=
  unspliced_append hsplice

/-- Only a backslash begins a splice. -/
theorem not_splicedAt_of_ne (hb : b ≠ Byte.backslash) (rest : Bytes) : ¬ SplicedAt [b] rest :=
  fun hsplice => hb (Option.some.inj hsplice.1)

/-- The first byte of a text that begins with no splice is kept. -/
theorem head?_unspliced (hsplice : ¬ [Byte.backslash, Byte.newline] <+: rest) :
    (unspliced rest).head? = rest.head? := by
  match rest with
  | [] => rfl
  | [b] => rfl
  | b :: c :: rest =>
    have hnone : ¬ (b = Byte.backslash ∧ c = Byte.newline) := by
      rintro ⟨rfl, rfl⟩
      exact hsplice ⟨rest, rfl⟩
    rw [unspliced_cons_cons, if_neg hnone]
    rfl

/-- A byte that begins no splice is kept. -/
theorem unspliced_cons_of_not_splice (hsplice : ¬ [Byte.backslash, Byte.newline] <+: b :: rest) :
    unspliced (b :: rest) = b :: unspliced rest := by
  refine unspliced_cons ?_
  rintro ⟨hlast, hhead⟩
  obtain ⟨others, rfl⟩ := List.head?_eq_some_iff.mp hhead
  rw [List.getLast?_singleton, Option.some.injEq] at hlast
  exact hsplice ⟨others, by rw [hlast]; rfl⟩

/-- Text on one line has no splices. -/
theorem unspliced_of_not_mem {text : Bytes} (hnewline : Byte.newline ∉ text) :
    unspliced text = text := by
  induction text with
  | nil => rfl
  | cons b rest ih =>
    rw [List.mem_cons, not_or] at hnewline
    rw [unspliced_cons, ih hnewline.2]
    exact fun hsplice => hnewline.2 (List.mem_of_mem_head? hsplice.2)

/-- Bytes behind a place where no splice stands come from behind it. -/
theorem origin_append_right (hsplice : ¬ SplicedAt front back) (index : Nat) :
    origin (front ++ back) ((unspliced front).length + index) =
      front.length + origin back index := by
  induction front using unspliced.induct with
  | case1 => simp [unspliced]
  | case2 b =>
    cases back with
    | nil => rfl
    | cons c rest =>
      rw [unspliced, List.length_singleton, List.singleton_append, origin_cons_cons,
        if_neg (not_splice_of_not_splicedAt hsplice), if_neg (by omega), Nat.add_sub_cancel_left,
        Nat.add_comm]
  | case3 b c rest hhead ih =>
    have hmore := ih fun hrest => hsplice ((hrest.cons c).cons b)
    rw [List.cons_append, List.cons_append, unspliced_cons_cons, origin_cons_cons, if_pos hhead,
      if_pos hhead, hmore, List.length_cons, List.length_cons]
    omega
  | case4 b c rest hhead ih =>
    have hmore := ih fun hrest => hsplice (hrest.cons b)
    rw [unspliced_cons_cons, if_neg hhead, List.length_cons, List.cons_append, List.cons_append,
      origin_cons_cons, if_neg hhead, if_neg (by omega), ← List.cons_append, Nat.add_right_comm,
      Nat.add_sub_cancel, hmore]
    simp only [List.length_cons]
    omega

/-- Later bytes come from later places. -/
theorem origin_mono (text : Bytes) {index index' : Nat} (hle : index ≤ index') :
    origin text index ≤ origin text index' := by
  induction text using unspliced.induct generalizing index index' with
  | case1 => exact hle
  | case2 => exact hle
  | case3 b c rest hhead ih =>
    rw [origin_cons_cons, origin_cons_cons, if_pos hhead, if_pos hhead]
    exact Nat.add_le_add_right (ih hle) 2
  | case4 b c rest hhead ih =>
    rw [origin_cons_cons, origin_cons_cons, if_neg hhead, if_neg hhead]
    by_cases hzero : index = 0
    · rw [if_pos hzero]
      exact Nat.zero_le _
    · rw [if_neg hzero, if_neg (by omega)]
      exact Nat.add_le_add_right (ih (Nat.sub_le_sub_right hle 1)) 1

/-- The bytes of a front come from the front. -/
theorem origin_append_lt (hsplice : ¬ SplicedAt front back) {index : Nat}
    (hindex : index < (unspliced front).length) : origin (front ++ back) index < front.length := by
  induction front using unspliced.induct generalizing index with
  | case1 => exact absurd hindex (Nat.not_lt_zero index)
  | case2 b =>
    obtain rfl : index = 0 := Nat.lt_one_iff.mp hindex
    cases back with
    | nil => exact Nat.zero_lt_one
    | cons c rest =>
      rw [List.singleton_append, origin_cons_cons,
        if_neg (not_splice_of_not_splicedAt hsplice), if_pos rfl]
      exact Nat.zero_lt_one
  | case3 b c rest hhead ih =>
    rw [unspliced_cons_cons, if_pos hhead] at hindex
    have hmore := ih (fun hrest => hsplice ((hrest.cons c).cons b)) hindex
    rw [List.cons_append, List.cons_append, origin_cons_cons, if_pos hhead, List.length_cons,
      List.length_cons]
    omega
  | case4 b c rest hhead ih =>
    rw [unspliced_cons_cons, if_neg hhead, List.length_cons] at hindex
    rw [List.cons_append, List.cons_append, origin_cons_cons, if_neg hhead, List.length_cons]
    by_cases hzero : index = 0
    · rw [if_pos hzero]
      exact Nat.succ_pos _
    · have hmore := @ih (fun hrest => hsplice (hrest.cons b)) (index - 1) (by omega)
      rw [if_neg hzero, ← List.cons_append]
      omega

end Append

/-! ## Units without their splices -/

/-- The rest of a literal behind its opening quote, in a text without splices. A backslash takes the
byte behind it along, but no line end: a literal that is not closed ends with its line. -/
def splitLineLiteral (mark : UInt8) : Bytes → Bytes × Bytes
  | [] => ([], [])
  | [b] => if b = Byte.newline then ([], [b]) else ([b], [])
  | b :: c :: rest =>
    if b = Byte.newline then ([], b :: c :: rest)
    else if b = mark then ([b], c :: rest)
    else if b = Byte.backslash ∧ c ≠ Byte.newline then
      (b :: c :: (splitLineLiteral mark rest).1, (splitLineLiteral mark rest).2)
    else (b :: (splitLineLiteral mark (c :: rest)).1, (splitLineLiteral mark (c :: rest)).2)

section Units

variable {mark b c : UInt8} {text rest : Bytes}

/-- A literal ends in front of a newline. -/
theorem splitLineLiteral_newline (mark : UInt8) (rest : Bytes) :
    splitLineLiteral mark (Byte.newline :: rest) = ([], Byte.newline :: rest) := by
  cases rest with
  | nil => rfl
  | cons c rest => rw [splitLineLiteral, if_pos rfl]

/-- A literal ends behind its quotation mark. -/
theorem splitLineLiteral_mark (hmark : mark ≠ Byte.newline) (rest : Bytes) :
    splitLineLiteral mark (mark :: rest) = ([mark], rest) := by
  cases rest with
  | nil => rw [splitLineLiteral, if_neg hmark]
  | cons c rest => rw [splitLineLiteral, if_neg hmark, if_pos rfl]

/-- Any other byte goes into the literal. -/
theorem splitLineLiteral_cons (hnewline : b ≠ Byte.newline) (hmark : b ≠ mark)
    (hescape : b ≠ Byte.backslash) (rest : Bytes) :
    splitLineLiteral mark (b :: rest) =
      (b :: (splitLineLiteral mark rest).1, (splitLineLiteral mark rest).2) := by
  cases rest with
  | nil => exact if_neg hnewline
  | cons c rest =>
    rw [splitLineLiteral, if_neg hnewline, if_neg hmark, if_neg fun hhead => hescape hhead.1]

/-- An escape goes into the literal with the byte behind it. -/
theorem splitLineLiteral_escape (hmark : mark ≠ Byte.backslash) (hc : c ≠ Byte.newline)
    (rest : Bytes) :
    splitLineLiteral mark (Byte.backslash :: c :: rest) =
      (Byte.backslash :: c :: (splitLineLiteral mark rest).1, (splitLineLiteral mark rest).2) := by
  rw [splitLineLiteral, if_neg (by decide), if_neg hmark.symm, if_pos ⟨rfl, hc⟩]

/-- What is left of a literal does not begin with a line end. -/
theorem head?_splitLiteralBody (mark : UInt8) (hmark : mark ≠ Byte.newline) (text : Bytes) :
    (splitLiteralBody mark text).1.head? ≠ some Byte.newline := by
  fun_cases splitLiteralBody mark text with
  | case1 => exact nofun
  | case2 => decide
  | case3 => exact fun hhead => absurd (Option.some.inj hhead) (by decide)
  | case4 => exact nofun
  | case5 rest hescape hnewline => exact fun hhead => hmark (Option.some.inj hhead)
  | case6 b rest hescape hnewline hne => exact fun hhead => hnewline (Option.some.inj hhead)

/-- A literal whose end is not spliced is the same literal without its splices. -/
theorem splitLineLiteral_unspliced (hmark : mark = Byte.doubleQuote ∨ mark = Byte.quote)
    (hsplice : ¬ SplicedAt (splitLiteralBody mark text).1 (splitLiteralBody mark text).2) :
    splitLineLiteral mark (unspliced text) =
      (unspliced (splitLiteralBody mark text).1, unspliced (splitLiteralBody mark text).2) := by
  have hescape : mark ≠ Byte.backslash := by rcases hmark with rfl | rfl <;> decide
  have hnewline : mark ≠ Byte.newline := by rcases hmark with rfl | rfl <;> decide
  fun_induction splitLiteralBody mark text with
  | case1 => rfl
  | case2 => rfl
  | case3 c rest body behind hbody ih =>
    rw [hbody] at ih
    have hmore := ih fun hrest => hsplice ((hrest.cons c).cons _)
    by_cases hc : c = Byte.newline
    · rw [unspliced_cons_cons, unspliced_cons_cons, if_pos ⟨rfl, hc⟩, if_pos ⟨rfl, hc⟩, hmore]
    · -- A backslash that the first one takes along is not that of a splice.
      have hrest : ¬ SplicedAt [c] rest := by
        rintro ⟨hlast, hhead⟩
        obtain ⟨others, rfl⟩ := List.head?_eq_some_iff.mp hhead
        rw [splitLiteralBody_cons mark (by decide), if_pos rfl, Prod.mk.injEq] at hbody
        obtain ⟨rfl, rfl⟩ := hbody
        exact hsplice ⟨hlast, rfl⟩
      have hinner : ¬ SplicedAt [c] body := by
        rintro ⟨-, hhead⟩
        have hfirst := head?_splitLiteralBody mark hnewline rest
        rw [hbody] at hfirst
        exact hfirst hhead
      rw [unspliced_cons_cons, unspliced_cons_cons, if_neg fun hhead => hc hhead.2,
        if_neg fun hhead => hc hhead.2, unspliced_cons hrest, unspliced_cons hinner,
        splitLineLiteral_escape hescape hc, hmore]
  | case4 rest hne =>
    rw [unspliced_cons (not_splicedAt_of_ne hne rest), splitLineLiteral_newline]
    rfl
  | case5 rest hne hline =>
    rw [unspliced_cons (not_splicedAt_of_ne hne rest), splitLineLiteral_mark hnewline]
    rfl
  | case6 b rest hne hline hother body behind hbody ih =>
    rw [hbody] at ih
    rw [unspliced_cons (not_splicedAt_of_ne hne rest),
      unspliced_cons (not_splicedAt_of_ne hne body), splitLineLiteral_cons hline hother hne,
      ih fun hrest => hsplice (hrest.cons b)]

/-- What ends a number ends it without splices, too. -/
theorem splitNumberBody_unspliced {last : UInt8} (hends : (splitNumberBody last text).1 = [])
    (hsplice : ¬ [Byte.backslash, Byte.newline] <+: text)
    (hquote : ¬ [Byte.quote, Byte.backslash, Byte.newline] <+: text) :
    splitNumberBody last (unspliced text) = ([], unspliced text) := by
  cases text with
  | nil => rfl
  | cons c more =>
    have hnumber : ¬ (Byte.continuesIdentifier c ∨ c = Byte.dot ∨ (c = Byte.quote ∧
        Byte.isAlphanumeric last ∧ more.head?.any Byte.isAlphanumeric)) := by
      intro hjoins
      rw [splitNumberBody, if_pos hjoins] at hends
      cases hends
    have hsame : c = Byte.quote → (unspliced more).head? = more.head? := by
      rintro rfl
      refine head?_unspliced ?_
      rintro ⟨others, rfl⟩
      exact hquote ⟨others, rfl⟩
    rw [unspliced_cons_of_not_splice hsplice, splitNumberBody, if_neg]
    rintro (hword | hdot | ⟨hq, hleft, hright⟩)
    · exact hnumber (.inl hword)
    · exact hnumber (.inr (.inl hdot))
    · rw [hsame hq] at hright
      exact hnumber (.inr (.inr ⟨hq, hleft, hright⟩))

/-- A block comment takes the first byte behind its opening. -/
theorem exists_splitBlockCommentBody_cons {body behind : Bytes}
    (hbody : splitBlockCommentBody (c :: rest) = (body, behind)) :
    ∃ others, body = c :: others := by
  cases rest with
  | nil =>
    cases hbody
    exact ⟨[], rfl⟩
  | cons d rest =>
    rw [splitBlockCommentBody] at hbody
    split at hbody
    · cases hbody
      exact ⟨[d], rfl⟩
    · cases hbody
      exact ⟨_, rfl⟩

/-- A star stands directly before a splice. -/
def StarSpliced (text : Bytes) : Prop :=
  [Byte.star, Byte.backslash, Byte.newline] <:+: text

instance (text : Bytes) : Decidable (StarSpliced text) :=
  inferInstanceAs (Decidable ([Byte.star, Byte.backslash, Byte.newline] <:+: text))

/-- A splice behind a star stays one behind one more byte. -/
theorem StarSpliced.cons (hsplice : StarSpliced text) (b : UInt8) : StarSpliced (b :: text) :=
  hsplice.trans (List.suffix_cons b text).isInfix

/-- A block comment without a spliced star is the same comment without its splices. -/
theorem splitBlockCommentBody_unspliced (hstar : ¬ StarSpliced (splitBlockCommentBody text).1) :
    splitBlockCommentBody (unspliced text) =
      (unspliced (splitBlockCommentBody text).1, unspliced (splitBlockCommentBody text).2) := by
  fun_induction splitBlockCommentBody text with
  | case1 => rfl
  | case2 b => rfl
  | case3 b c rest hclose =>
    obtain ⟨rfl, rfl⟩ := hclose
    rw [unspliced_cons (not_splicedAt_of_ne (by decide) _),
      unspliced_cons (not_splicedAt_of_ne (by decide) _), splitBlockCommentBody, if_pos ⟨rfl, rfl⟩]
    rfl
  | case4 b c rest hclose body behind hbody ih =>
    rw [hbody] at ih
    have hmore := ih fun hrest => hstar (hrest.cons b)
    by_cases hhead : b = Byte.backslash ∧ c = Byte.newline
    · obtain ⟨rfl, rfl⟩ := hhead
      have hline : Byte.newline ≠ Byte.star := by decide
      rw [splitBlockCommentBody_cons hline, Prod.mk.injEq] at hbody
      obtain ⟨rfl, rfl⟩ := hbody
      rw [unspliced_cons (not_splicedAt_of_ne (by decide) _),
        unspliced_cons (not_splicedAt_of_ne (by decide) _), splitBlockCommentBody_cons hline,
        Prod.mk.injEq, List.cons.injEq] at hmore
      rw [unspliced_cons_cons, unspliced_cons_cons, if_pos ⟨rfl, rfl⟩, if_pos ⟨rfl, rfl⟩]
      exact Prod.ext hmore.1.2 hmore.2
    · obtain ⟨others, rfl⟩ := exists_splitBlockCommentBody_cons hbody
      rw [unspliced_cons_cons, unspliced_cons_cons, if_neg hhead, if_neg hhead]
      by_cases hb : b = Byte.star
      · subst hb
        have hfirst : ¬ [Byte.backslash, Byte.newline] <+: c :: rest := by
          rintro ⟨more, htext⟩
          simp only [List.cons_append, List.nil_append, List.cons.injEq] at htext
          obtain ⟨rfl, rfl⟩ := htext
          rw [splitBlockCommentBody_cons (by decide), splitBlockCommentBody_cons (by decide),
            Prod.mk.injEq] at hbody
          rw [← hbody.1] at hstar
          exact hstar (List.prefix_append [Byte.star, Byte.backslash, Byte.newline] _).isInfix
        obtain ⟨more, htext⟩ := List.head?_eq_some_iff.mp (head?_unspliced hfirst)
        have hopen : ¬ (Byte.star = Byte.star ∧ c = Byte.slash) := hclose
        rw [htext] at hmore ⊢
        rw [splitBlockCommentBody, if_neg hopen, hmore]
      · rw [splitBlockCommentBody_cons hb, hmore]

end Units

end PlainSync.Source
