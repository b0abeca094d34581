import PlainSync.Proofs.Source.Outline
import PlainSync.Proofs.Source.Plain

/-!
# Exchanging what stands behind

A comment, a literal or an argument list that is over reads nothing of what stands behind it. So
the rest of a text can be exchanged for another one behind an argument list, and all that is
found in the list, and decided about its call, stays the same.
-/

namespace PlainSync.Source

open Bytes

/-! ## Units that are over -/

/-- A literal that ends in a text ends there whatever follows it. -/
theorem splitLiteralBody_append_of_stop {mark : UInt8} {text : Bytes} (tail : Bytes)
    (hstop : (splitLiteralBody mark text).2 ≠ []) :
    splitLiteralBody mark (text ++ tail) =
      ((splitLiteralBody mark text).1, (splitLiteralBody mark text).2 ++ tail) := by
  fun_induction splitLiteralBody mark text with
  | case1 => exact absurd rfl hstop
  | case2 => exact absurd rfl hstop
  | case3 c rest body behind hbody ih =>
    rw [hbody] at ih
    simp only [List.cons_append, splitLiteralBody, if_true, ih hstop]
  | case4 rest hescape => simp only [List.cons_append, splitLiteralBody_cons mark hescape, if_true]
  | case5 rest hescape hnewline =>
    simp only [List.cons_append, splitLiteralBody_cons _ hescape, if_neg hnewline, if_true]
  | case6 b rest hescape hnewline hmark body behind hbody ih =>
    rw [hbody] at ih
    simp only [List.cons_append, splitLiteralBody_cons _ hescape, if_neg hnewline, if_neg hmark,
      ih hstop]

/-- A block comment that ends in a text ends there whatever follows it. -/
theorem splitBlockCommentBody_append_of_stop {text : Bytes} (tail : Bytes)
    (hstop : (splitBlockCommentBody text).2 ≠ []) :
    splitBlockCommentBody (text ++ tail) =
      ((splitBlockCommentBody text).1, (splitBlockCommentBody text).2 ++ tail) := by
  fun_induction splitBlockCommentBody text with
  | case1 => exact absurd rfl hstop
  | case2 => exact absurd rfl hstop
  | case3 b c rest hclose => simp only [List.cons_append, splitBlockCommentBody, if_pos hclose]
  | case4 b c rest hclose body behind hbody ih =>
    rw [hbody] at ih
    rw [List.cons_append] at ih
    simp only [List.cons_append, splitBlockCommentBody, if_neg hclose, ih hstop]

/-- A comment or literal with text behind it is the same in front of a longer text. -/
theorem splitTrivia?_append_of_stop {text unit behind : Bytes} (tail : Bytes)
    (hsplit : splitTrivia? text = some (unit, behind)) (hbehind : behind ≠ []) :
    splitTrivia? (text ++ tail) = some (unit, behind ++ tail) := by
  cases text with
  | nil => cases hsplit
  | cons b rest =>
    by_cases hslash : b = Byte.slash
    · cases rest with
      | nil => simp [splitTrivia?, hslash] at hsplit
      | cons c rest =>
        simp only [List.cons_append, splitTrivia?, if_pos hslash] at hsplit ⊢
        by_cases hstar : c = Byte.star
        · simp only [if_pos hstar, Option.some.injEq, Prod.mk.injEq] at hsplit ⊢
          obtain ⟨rfl, rfl⟩ := hsplit
          rw [splitBlockCommentBody_append_of_stop tail hbehind]
          exact ⟨rfl, rfl⟩
        · simp only [if_neg hstar] at hsplit ⊢
          by_cases hline : c = Byte.slash
          · simp only [if_pos hline, splitLine, Option.some.injEq, Prod.mk.injEq] at hsplit ⊢
            obtain ⟨rfl, rfl⟩ := hsplit
            obtain ⟨hfront, hback⟩ := takeWhile_append_of_stop tail hbehind
            rw [hfront, hback]
            exact ⟨rfl, rfl⟩
          · rw [if_neg hline] at hsplit
            cases hsplit
    · simp only [List.cons_append, splitTrivia?, if_neg hslash] at hsplit ⊢
      by_cases hquote : b = Byte.doubleQuote ∨ b = Byte.quote
      · simp only [if_pos hquote, splitLiteral, Option.some.injEq, Prod.mk.injEq] at hsplit ⊢
        obtain ⟨rfl, rfl⟩ := hsplit
        rw [splitLiteralBody_append_of_stop tail hbehind]
        exact ⟨rfl, rfl⟩
      · rw [if_neg hquote] at hsplit
        cases hsplit

/-- Where two bytes begin no comment or literal, none begins whatever follows. -/
theorem splitTrivia?_append_none {b : UInt8} {rest : Bytes} (tail : Bytes)
    (hsplit : splitTrivia? (b :: rest) = none) (hrest : rest ≠ []) :
    splitTrivia? (b :: (rest ++ tail)) = none := by
  by_cases hslash : b = Byte.slash
  · cases rest with
    | nil => exact absurd rfl hrest
    | cons c rest =>
      simp only [List.cons_append, splitTrivia?, if_pos hslash] at hsplit ⊢
      split at hsplit
      · cases hsplit
      · next hstar =>
        split at hsplit
        · cases hsplit
        · next hline => rw [if_neg hstar, if_neg hline]
  · simp only [splitTrivia?, if_neg hslash] at hsplit ⊢
    split at hsplit
    · cases hsplit
    · next hquote => rw [if_neg hquote]

section Exchange

variable {unit front behind : Bytes} {b : UInt8}

/-- Behind a comment or literal, all but the next byte can be exchanged. -/
theorem splitTrivia?_exchange (behind' : Bytes) (hfront : front ≠ [])
    (hsplit : splitTrivia? (unit ++ (front ++ behind)) = some (unit, front ++ behind)) :
    splitTrivia? (unit ++ (front ++ behind')) = some (unit, front ++ behind') := by
  cases unit with
  | nil => exact absurd (length_pos_of_splitTrivia? hsplit) (by decide)
  | cons b unit =>
    rw [List.cons_append, ← List.append_assoc] at hsplit
    rw [← List.append_assoc]
    exact splitTrivia?_append_of_stop behind' (splitTrivia?_cut hsplit) hfront

/-- Where no comment or literal begins, none begins if what follows is exchanged. -/
theorem splitTrivia?_exchange_none (behind' : Bytes) (hfront : front ≠ [])
    (hsplit : splitTrivia? (b :: (front ++ behind)) = none) :
    splitTrivia? (b :: (front ++ behind')) = none :=
  splitTrivia?_append_none behind' (splitTrivia?_cut_none hsplit) hfront

end Exchange

/-! ## Argument lists -/

namespace ArgumentList

variable (list : ArgumentList) (behind : Bytes)

/-- The same argument list in front of another text. -/
def inFrontOf : ArgumentList := { list with behind := behind }

/-- The text of an argument list in front of another text. -/
def closed : Bytes := list.inside ++ Byte.closeParen :: behind

/-- Text in front of the first argument comes first. -/
@[simp] theorem closed_prepend (text : Bytes) :
    (list.prepend text).closed behind = text ++ list.closed behind := by
  simp [closed]

/-- A comma in front of a list comes first. -/
@[simp] theorem closed_separate :
    list.separate.closed behind = Byte.comma :: list.closed behind := by
  simp [closed]

/-- A closed list is what stands inside, a parenthesis and what stands behind. -/
theorem closed_eq_append : list.closed behind = list.inside ++ [Byte.closeParen] ++ behind := by
  simp [closed]

end ArgumentList

section ArgumentLists

variable {unit : Bytes} {b : UInt8} {list : ArgumentList}

/-- A comment or literal in a list stays one if what stands behind the list is exchanged. -/
theorem splitTrivia?_closed (behind : Bytes)
    (htrivia : splitTrivia? (unit ++ list.closed list.behind) =
      some (unit, list.closed list.behind)) :
    splitTrivia? (unit ++ list.closed behind) = some (unit, list.closed behind) := by
  rw [ArgumentList.closed_eq_append] at htrivia ⊢
  exact splitTrivia?_exchange behind (by simp) htrivia

/-- Where none begins in a list, none does if what stands behind the list is exchanged. -/
theorem splitTrivia?_closed_none (behind : Bytes)
    (htrivia : splitTrivia? (b :: list.closed list.behind) = none) :
    splitTrivia? (b :: list.closed behind) = none := by
  rw [ArgumentList.closed_eq_append] at htrivia ⊢
  exact splitTrivia?_exchange_none behind (by simp) htrivia

end ArgumentLists

/-- A text is its argument list in front of the rest. -/
theorem closed_of_splitArguments? {depth : Nat} {text : Bytes} {list : ArgumentList}
    (hsplit : splitArguments? depth text = some list) : text = list.closed list.behind :=
  (append_of_splitArguments? hsplit).symm

/-- Induction along an argument list, by its comments and literals, its outer commas and its other
bytes, which may change the depth. -/
theorem splitArguments?_induction {motive : Nat → ArgumentList → Prop}
    (close : ∀ behind, motive 0 ⟨[], [], behind⟩)
    (trivia : ∀ {depth unit tail}, splitTrivia? (unit ++ tail.closed tail.behind) =
      some (unit, tail.closed tail.behind) → motive depth tail → motive depth (tail.prepend unit))
    (comma : ∀ {tail}, motive 0 tail → motive 0 tail.separate)
    (byte : ∀ {depth depth' b tail}, splitTrivia? (b :: tail.closed tail.behind) = none →
      (∀ {text}, splitTrivia? (b :: text) = none →
        splitArguments? depth (b :: text) = (splitArguments? depth' text).map (·.prepend [b])) →
      motive depth' tail → motive depth (tail.prepend [b]))
    {depth : Nat} {text : Bytes} {list : ArgumentList}
    (hsplit : splitArguments? depth text = some list) : motive depth list := by
  induction depth, text using splitArguments?.induct generalizing list with
  | case1 depth text unit rest htrivia ih =>
    rw [splitArguments?_trivia htrivia] at hsplit
    obtain ⟨tail, htail, rfl⟩ := Option.map_eq_some_iff.mp hsplit
    have hwhole := append_of_splitTrivia? htrivia
    rw [← hwhole, closed_of_splitArguments? htail] at htrivia
    exact trivia htrivia (ih htail)
  | case2 depth htrivia =>
    rw [splitArguments?_nil] at hsplit
    cases hsplit
  | case3 depth b rest htrivia hclose =>
    rw [splitArguments?_cons htrivia, if_pos hclose] at hsplit
    cases hsplit
    rw [hclose.2]
    exact close rest
  | case4 depth b rest htrivia hclose hcomma ih =>
    rw [splitArguments?_cons htrivia, if_neg hclose, if_pos hcomma] at hsplit
    obtain ⟨tail, htail, rfl⟩ := Option.map_eq_some_iff.mp hsplit
    obtain ⟨-, rfl⟩ := hcomma
    exact comma (ih htail)
  | case5 depth b rest htrivia hclose hcomma hopens ih =>
    have hstep {text : Bytes} (htext : splitTrivia? (b :: text) = none) :
        splitArguments? depth (b :: text) =
          (splitArguments? (depth + 1) text).map (·.prepend [b]) := by
      rw [splitArguments?_cons htext, if_neg hclose, if_neg hcomma, if_pos hopens]
    rw [hstep htrivia] at hsplit
    obtain ⟨tail, htail, rfl⟩ := Option.map_eq_some_iff.mp hsplit
    rw [closed_of_splitArguments? htail] at htrivia
    exact byte htrivia hstep (ih htail)
  | case6 depth b rest htrivia hclose hcomma hopens hcloses ih =>
    have hstep {text : Bytes} (htext : splitTrivia? (b :: text) = none) :
        splitArguments? depth (b :: text) =
          (splitArguments? (depth - 1) text).map (·.prepend [b]) := by
      rw [splitArguments?_cons htext, if_neg hclose, if_neg hcomma, if_neg hopens, if_pos hcloses]
    rw [hstep htrivia] at hsplit
    obtain ⟨tail, htail, rfl⟩ := Option.map_eq_some_iff.mp hsplit
    rw [closed_of_splitArguments? htail] at htrivia
    exact byte htrivia hstep (ih htail)
  | case7 depth b rest htrivia hclose hcomma hopens hcloses ih =>
    have hstep {text : Bytes} (htext : splitTrivia? (b :: text) = none) :
        splitArguments? depth (b :: text) = (splitArguments? depth text).map (·.prepend [b]) := by
      rw [splitArguments?_cons htext, if_neg hclose, if_neg hcomma, if_neg hopens, if_neg hcloses]
    rw [hstep htrivia] at hsplit
    obtain ⟨tail, htail, rfl⟩ := Option.map_eq_some_iff.mp hsplit
    rw [closed_of_splitArguments? htail] at htrivia
    exact byte htrivia hstep (ih htail)

/-- An argument list that is over is the same in front of every other text. -/
theorem splitArguments?_exchange {depth : Nat} {text : Bytes} {list : ArgumentList}
    (hsplit : splitArguments? depth text = some list) (behind : Bytes) :
    splitArguments? depth (list.closed behind) = some (list.inFrontOf behind) := by
  refine splitArguments?_induction
    (motive := fun depth list =>
      splitArguments? depth (list.closed behind) = some (list.inFrontOf behind))
    ?close ?trivia ?comma ?byte hsplit
  case close => exact fun _ => splitArguments?_cons rfl
  case trivia =>
    intro depth unit tail htrivia ih
    rw [ArgumentList.closed_prepend, splitArguments?_trivia (splitTrivia?_closed behind htrivia),
      ih]
    rfl
  case comma =>
    intro tail ih
    rw [ArgumentList.closed_separate, splitArguments?_cons rfl, if_neg (by decide),
      if_pos (by decide), ih]
    rfl
  case byte =>
    intro depth depth' b tail htrivia hstep ih
    rw [ArgumentList.closed_prepend, List.singleton_append,
      hstep (splitTrivia?_closed_none behind htrivia), ih]
    rfl

/-- The search for a directive in an argument list that is over does not look behind it. -/
theorem findDirective?_exchange {depth : Nat} {text : Bytes} {list : ArgumentList}
    (hsplit : splitArguments? depth text = some list) (before behind : Bytes) :
    findDirective? before (list.closed behind) list.inside.length =
      findDirective? before text list.inside.length := by
  rw [closed_of_splitArguments? hsplit]
  refine splitArguments?_induction
    (motive := fun _ list => ∀ before, findDirective? before (list.closed behind)
      list.inside.length = findDirective? before (list.closed list.behind) list.inside.length)
    ?close ?trivia ?comma ?byte hsplit before
  case close => exact fun _ _ => findDirective?_zero.trans findDirective?_zero.symm
  case trivia =>
    intro depth unit tail htrivia ih before
    have hpos := length_pos_of_splitTrivia? htrivia
    simp only [ArgumentList.closed_prepend, ArgumentList.inside_prepend,
      ArgumentList.behind_prepend, List.length_append]
    rw [findDirective?_trivia (by omega) htrivia,
      findDirective?_trivia (by omega) (splitTrivia?_closed behind htrivia),
      Nat.add_sub_cancel_left, ih]
  case comma =>
    intro tail ih before
    simp only [ArgumentList.closed_separate, ArgumentList.inside_separate,
      ArgumentList.behind_separate, List.length_cons]
    rw [findDirective?_cons rfl, findDirective?_cons rfl, ih]
  case byte =>
    intro depth depth' b tail htrivia hstep ih before
    simp only [ArgumentList.closed_prepend, ArgumentList.inside_prepend,
      ArgumentList.behind_prepend, List.singleton_append, List.length_cons]
    rw [findDirective?_cons htrivia, findDirective?_cons (splitTrivia?_closed_none behind htrivia),
      ih]

/-- A directive is found among the bytes that are searched, at a hash mark. -/
theorem lt_and_getElem?_of_findDirective? {before text : Bytes} {span offset : Nat}
    (hfound : findDirective? before text span = some offset) :
    offset < span ∧ text[offset]? = some Byte.hash := by
  induction before, text, span using findDirective?.induct generalizing offset with
  | case1 before text =>
    rw [findDirective?_zero] at hfound
    cases hfound
  | case2 before text span hspan unit behind htrivia ih =>
    rw [findDirective?_trivia hspan htrivia] at hfound
    obtain ⟨offset, hoffset, rfl⟩ := Option.map_eq_some_iff.mp hfound
    obtain ⟨hless, hhash⟩ := ih hoffset
    rw [← append_of_splitTrivia? htrivia, List.getElem?_append_right (Nat.le_add_right _ _),
      Nat.add_sub_cancel_left]
    exact ⟨by omega, hhash⟩
  | case3 before span hspan htrivia =>
    rw [findDirective?, if_neg hspan] at hfound
    cases hfound
  | case4 before span hspan b rest htrivia hstart =>
    obtain ⟨span, rfl⟩ := Nat.exists_eq_succ_of_ne_zero hspan
    rw [findDirective?_cons htrivia, if_pos hstart] at hfound
    cases hfound
    exact ⟨Nat.succ_pos span, congrArg some hstart.1⟩
  | case5 before span hspan b rest htrivia hstart ih =>
    obtain ⟨span, rfl⟩ := Nat.exists_eq_succ_of_ne_zero hspan
    rw [findDirective?_cons htrivia, if_neg hstart] at hfound
    obtain ⟨offset, hoffset, rfl⟩ := Option.map_eq_some_iff.mp hfound
    obtain ⟨hless, hhash⟩ := ih hoffset
    rw [Nat.add_comm 1 offset, List.getElem?_cons_succ]
    exact ⟨by omega, hhash⟩

/-- A call is judged by its argument list, whatever stands behind it. -/
theorem judge_exchange {text : Bytes} {list : ArgumentList}
    (hsplit : splitArguments? 0 text = some list) (builtin : Builtin) (line : Nat)
    (before behind : Bytes) :
    judge builtin line before (list.closed behind) =
      (judge builtin line before text).map (·.inFrontOf behind) := by
  have hdirective : findDirective? before (list.closed behind) (list.inFrontOf behind).inside.length
      = findDirective? before text list.inside.length :=
    findDirective?_exchange hsplit before behind
  simp only [judge, hsplit, splitArguments?_exchange hsplit, hdirective]
  cases hfound : findDirective? before text list.inside.length with
  | some offset =>
    have hless := (lt_and_getElem?_of_findDirective? hfound).1
    have htake : (list.closed behind).take offset = text.take offset := by
      rw [closed_of_splitArguments? hsplit, ArgumentList.closed, ArgumentList.closed,
        List.take_append_of_le_length (Nat.le_of_lt hless),
        List.take_append_of_le_length (Nat.le_of_lt hless)]
    simp only [htake]
    rfl
  | none =>
    have harguments : (list.inFrontOf behind).arguments = list.arguments := rfl
    simp only [harguments]
    split <;> rfl

end PlainSync.Source
