import Mathlib.Data.List.Forall2
import PlainSync.Proofs.Source.LineEndings

/-!
# Line endings in argument lists

An argument list is cut at the same places if its line ends are written with carriage returns,
and its first directive stands on the same line, unless a literal is continued on the next line.
-/

namespace PlainSync.Source

open Bytes

/-- The comments and literals that are read while an argument list is cut, `depth` groups deep. -/
def triviaRead (depth : Nat) (text : Bytes) : List Bytes :=
  match _trivia : splitTrivia? text with
  | some (unit, behind) => unit :: triviaRead depth behind
  | none =>
    match text with
    | [] => []
    | b :: rest =>
      if b = Byte.closeParen ∧ depth = 0 then []
      else if Byte.opensGroup b then triviaRead (depth + 1) rest
      else if Byte.closesGroup b then triviaRead (depth - 1) rest
      else triviaRead depth rest
termination_by text.length
decreasing_by
  · exact length_lt_of_splitTrivia? _trivia
  all_goals simp

section Arguments

variable {before rest text unit behind : Bytes} {b : UInt8} {depth span : Nat}

/-- A comment or literal is read. -/
theorem triviaRead_trivia (htrivia : splitTrivia? text = some (unit, behind)) :
    triviaRead depth text = unit :: triviaRead depth behind := by
  rw [triviaRead]
  split
  · next hsplit =>
    rw [htrivia, Option.some.injEq, Prod.mk.injEq] at hsplit
    rw [hsplit.1, hsplit.2]
  · next hsplit =>
    rw [htrivia] at hsplit
    cases hsplit

/-- What the next byte means to what is read. -/
theorem triviaRead_cons (htrivia : splitTrivia? (b :: rest) = none) :
    triviaRead depth (b :: rest) =
      if b = Byte.closeParen ∧ depth = 0 then []
      else if Byte.opensGroup b then triviaRead (depth + 1) rest
      else if Byte.closesGroup b then triviaRead (depth - 1) rest
      else triviaRead depth rest := by
  rw [triviaRead]
  split
  · next hsplit =>
    rw [htrivia] at hsplit
    cases hsplit
  · rfl

/-- How many lines the first directive stands below the beginning of the text. -/
def directiveLines? (before text : Bytes) (span : Nat) : Option Nat :=
  (findDirective? before text span).map fun offset => newlines (text.take offset)

/-- The lines of a comment or literal stand in front of the directive. -/
theorem directiveLines?_trivia (htrivia : splitTrivia? text = some (unit, behind)) (span : Nat) :
    directiveLines? before text (unit.length + span) =
      (directiveLines? (unit.reverse ++ before) behind span).map (newlines unit + ·) := by
  have hpos := length_pos_of_splitTrivia? htrivia
  rw [directiveLines?, findDirective?_trivia (by omega) htrivia, Nat.add_sub_cancel_left,
    directiveLines?, Option.map_map, Option.map_map, ← append_of_splitTrivia? htrivia]
  congr 1
  funext offset
  simp only [Function.comp_apply, List.take_length_add_append, newlines_append]

/-- What the next byte means to the lines in front of a directive. -/
theorem directiveLines?_cons (htrivia : splitTrivia? (b :: rest) = none) :
    directiveLines? before (b :: rest) (span + 1) =
      if b = Byte.hash ∧ atLineStart before then some 0
      else (directiveLines? (b :: before) rest span).map (newlines [b] + ·) := by
  rw [directiveLines?, findDirective?_cons htrivia]
  split
  · rfl
  · rw [directiveLines?, Option.map_map, Option.map_map]
    congr 1
    funext offset
    simp only [Function.comp_apply, Nat.add_comm 1, List.take_succ_cons]
    rw [newlines_cons]

end Arguments

/-- A line starts alike in front of both texts, or they begin with its end. -/
def SameStart (before before' text' : Bytes) : Prop :=
  text'.head? = some Byte.newline ∨ atLineStart before' = atLineStart before

namespace SameStart

variable {before before' text' : Bytes} {b : UInt8}

/-- In front of anything but a newline both texts start a line or neither does. -/
theorem of_ne (hstart : SameStart before before' (b :: text')) (hb : b ≠ Byte.newline) :
    atLineStart before' = atLineStart before :=
  hstart.resolve_left fun hhead => hb (Option.some.inj hhead)

/-- Texts that start lines alike do so behind one more byte. -/
theorem cons (hstart : SameStart before before' (b :: text')) (text : Bytes) :
    SameStart (b :: before) (b :: before') text := by
  refine .inr ?_
  rw [atLineStart_cons, atLineStart_cons]
  by_cases hb : b = Byte.newline
  · simp [hb]
  · rw [hstart.of_ne hb]

/-- Texts that start lines alike do so behind units that are cut alike. -/
theorem cut {cut cut' : Bytes × Bytes} (hcut : ReturnedCut cut cut')
    (hstart : atLineStart before' = atLineStart before) :
    SameStart (cut.1.reverse ++ before) (cut'.1.reverse ++ before') cut'.2 := by
  cases hcut with
  | apart hfront hbehind => exact .inr (hfront.atLineStart_eq hstart)
  | taken => exact .inl rfl

end SameStart

/-- Argument lists that are alike up to carriage returns. -/
structure ReturnedList (list list' : ArgumentList) : Prop where
  first : Returned list.first list'.first
  more : List.Forall₂ Returned list.more list'.more
  behind : Returned list.behind list'.behind

/-- Argument lists of both texts, with directives on the same lines, or of none. -/
inductive ListsAlike (before text before' text' : Bytes) :
    Option ArgumentList → Option ArgumentList → Prop
  | none : ListsAlike before text before' text' none none
  | some {list list' : ArgumentList} (hlists : ReturnedList list list')
    (hlines : directiveLines? before' text' list'.inside.length =
      directiveLines? before text list.inside.length) :
    ListsAlike before text before' text' (some list) (some list')

namespace ListsAlike

variable {before rest before' rest' : Bytes} {b : UInt8} {found found' : Option ArgumentList}

/-- One byte is put in front of both lists. -/
theorem byte (htrivia : splitTrivia? (b :: rest) = Option.none)
    (htrivia' : splitTrivia? (b :: rest') = Option.none)
    (hstart : SameStart before before' (b :: rest'))
    (halike : ListsAlike (b :: before) rest (b :: before') rest' found found')
    {put : ArgumentList → ArgumentList}
    (hinside : ∀ list, (put list).inside.length = list.inside.length + 1)
    (hput : ∀ list list', ReturnedList list list' → ReturnedList (put list) (put list')) :
    ListsAlike before (b :: rest) before' (b :: rest') (found.map put) (found'.map put) := by
  cases halike with
  | none => exact .none
  | some hlists hlines =>
    refine .some (hput _ _ hlists) ?_
    rw [hinside, hinside, directiveLines?_cons htrivia, directiveLines?_cons htrivia', hlines]
    by_cases hhash : b = Byte.hash
    · rw [hstart.of_ne (by rw [hhash]; decide)]
    · simp only [hhash, false_and]

/-- Lists are alike with one more byte in their first arguments. -/
theorem prepend (hb : b ≠ Byte.carriageReturn) (htrivia : splitTrivia? (b :: rest) = Option.none)
    (htrivia' : splitTrivia? (b :: rest') = Option.none)
    (hstart : SameStart before before' (b :: rest'))
    (halike : ListsAlike (b :: before) rest (b :: before') rest' found found') :
    ListsAlike before (b :: rest) before' (b :: rest') (found.map (·.prepend [b]))
      (found'.map (·.prepend [b])) := by
  refine halike.byte htrivia htrivia' hstart (fun list => ?_) fun list list' hlists => ?_
  · rw [ArgumentList.inside_prepend, List.length_append, Nat.add_comm]
    rfl
  · exact ⟨.byte hb hlists.first, hlists.more, hlists.behind⟩

/-- Lists are alike with one more comma. -/
theorem separate (hstart : SameStart before before' (Byte.comma :: rest'))
    (halike : ListsAlike (Byte.comma :: before) rest (Byte.comma :: before') rest' found found') :
    ListsAlike before (Byte.comma :: rest) before' (Byte.comma :: rest') (found.map (·.separate))
      (found'.map (·.separate)) := by
  refine halike.byte rfl rfl hstart (fun list => ?_) fun list list' hlists => ?_
  · rw [ArgumentList.inside_separate]
    rfl
  · exact ⟨.nil, .cons hlists.first hlists.more, hlists.behind⟩

end ListsAlike

/-- A line end stands in front of both lists. -/
theorem splitArguments?_lineEnd {depth : Nat} {before before' rest rest' : Bytes}
    (halike : ListsAlike (Byte.newline :: before) rest
      (Byte.newline :: Byte.carriageReturn :: before') rest' (splitArguments? depth rest)
      (splitArguments? depth rest')) :
    ListsAlike before (Byte.newline :: rest) before'
      (Byte.carriageReturn :: Byte.newline :: rest') (splitArguments? depth (Byte.newline :: rest))
      (splitArguments? depth (Byte.carriageReturn :: Byte.newline :: rest')) := by
  have hbyte (b : UInt8) (hb : b = Byte.newline ∨ b = Byte.carriageReturn) (text : Bytes) :
      splitArguments? depth (b :: text) = (splitArguments? depth text).map (·.prepend [b]) := by
    rcases hb with rfl | rfl <;> exact splitArguments?_cons rfl
  rw [hbyte _ (.inl rfl), hbyte _ (.inr rfl), hbyte _ (.inl rfl)]
  generalize splitArguments? depth rest = found at halike
  generalize splitArguments? depth rest' = found' at halike
  cases halike with
  | none => exact .none
  | @some list list' hlists hlines =>
    refine .some ⟨.lineEnd hlists.first, hlists.more, hlists.behind⟩ ?_
    simp only [ArgumentList.inside_prepend, List.singleton_append, List.length_cons]
    rw [directiveLines?_cons rfl, if_neg fun hhash => absurd hhash.1 (by decide),
      directiveLines?_cons rfl, if_neg fun hhash => absurd hhash.1 (by decide),
      directiveLines?_cons rfl, if_neg fun hhash => absurd hhash.1 (by decide), hlines,
      Option.map_map]
    congr 1
    funext lines
    exact Nat.zero_add _

/-- An argument list begins with the line end that stands in front of it. -/
theorem head?_first_of_newline {depth : Nat} {text : Bytes} {list : ArgumentList}
    (hsplit : splitArguments? depth text = some list) (hhead : text.head? = some Byte.newline) :
    list.first.head? = some Byte.newline := by
  obtain ⟨rest, rfl⟩ := List.head?_eq_some_iff.mp hhead
  have hbyte : splitArguments? depth (Byte.newline :: rest) =
      (splitArguments? depth rest).map (·.prepend [Byte.newline]) := splitArguments?_cons rfl
  rw [hbyte] at hsplit
  obtain ⟨tail, -, rfl⟩ := Option.map_eq_some_iff.mp hsplit
  rfl

/-- An argument list is cut alike with carriage returns in front of its line ends. -/
theorem splitArguments?_returned {depth : Nat} {text text' before before' : Bytes}
    (hreturned : Returned text text') (hstart : SameStart before before' text')
    (hunits : ∀ unit ∈ triviaRead depth text, StaysOnLine unit) :
    ListsAlike before text before' text' (splitArguments? depth text)
      (splitArguments? depth text') := by
  obtain ⟨hnone, hsome⟩ := splitTrivia?_returned hreturned
  induction depth, text using splitArguments?.induct generalizing text' before before' with
  | case1 depth text unit rest htrivia ih =>
    rw [triviaRead_trivia htrivia] at hunits
    obtain ⟨unit', rest', htrivia', hcut⟩ := hsome unit rest htrivia (hunits unit (by simp))
    have hline : atLineStart before' = atLineStart before := hstart.resolve_left fun hhead => by
      obtain ⟨more, rfl⟩ := List.head?_eq_some_iff.mp hhead
      cases htrivia'
    obtain ⟨hnone', hsome'⟩ := splitTrivia?_returned hcut.behind
    have halike := ih hcut.behind (.cut hcut hline)
      (fun other hother => hunits other (List.mem_cons_of_mem _ hother)) hnone' hsome'
    rw [splitArguments?_trivia htrivia, splitArguments?_trivia htrivia']
    have hhead := fun list => @head?_first_of_newline depth rest' list
    generalize splitArguments? depth rest = found at halike
    generalize splitArguments? depth rest' = found' at halike hhead
    cases halike with
    | none => exact .none
    | @some list list' hlists hlines =>
      refine .some ⟨hcut.joined hlists.first (hhead list' rfl), hlists.more, hlists.behind⟩ ?_
      have hcount : newlines unit' = newlines unit := hcut.newlines_eq
      rw [ArgumentList.inside_prepend, ArgumentList.inside_prepend, List.length_append,
        List.length_append, directiveLines?_trivia htrivia, directiveLines?_trivia htrivia', hlines,
        hcount]
  | case2 depth htrivia =>
    cases hreturned
    rw [splitArguments?_nil]
    exact .none
  | case3 depth b rest htrivia hclose =>
    obtain ⟨rfl, rfl⟩ := hclose
    obtain ⟨-, rest', rfl, hmore⟩ := hreturned.exists_cons (by decide)
    rw [splitArguments?_cons htrivia, splitArguments?_cons rfl]
    refine .some ⟨.nil, .nil, hmore⟩ ?_
    change directiveLines? _ _ 0 = directiveLines? _ _ 0
    rw [directiveLines?, directiveLines?, findDirective?_zero, findDirective?_zero]
    rfl
  | case4 depth b rest htrivia hclose hcomma ih =>
    obtain ⟨rfl, rfl⟩ := hcomma
    obtain ⟨-, rest', rfl, hmore⟩ := hreturned.exists_cons (by decide)
    obtain ⟨hnone', hsome'⟩ := splitTrivia?_returned hmore
    rw [triviaRead_cons htrivia, if_neg (by decide), if_neg (by decide),
      if_neg (by decide)] at hunits
    rw [splitArguments?_cons htrivia, splitArguments?_cons rfl]
    exact (ih hmore (hstart.cons rest') hunits hnone' hsome').separate hstart
  | case5 depth b rest htrivia hclose hcomma hopens ih =>
    have hb : b ≠ Byte.newline := by
      rintro rfl
      exact absurd hopens (by decide)
    obtain ⟨hb, rest', rfl, hmore⟩ := hreturned.exists_cons hb
    obtain ⟨hnone', hsome'⟩ := splitTrivia?_returned hmore
    rw [triviaRead_cons htrivia, if_neg hclose, if_pos hopens] at hunits
    rw [splitArguments?_cons htrivia, splitArguments?_cons (hnone htrivia), if_neg hclose,
      if_neg hcomma, if_pos hopens, if_neg hclose, if_neg hcomma, if_pos hopens]
    exact (ih hmore (hstart.cons rest') hunits hnone' hsome').prepend hb htrivia (hnone htrivia)
      hstart
  | case6 depth b rest htrivia hclose hcomma hopens hcloses ih =>
    have hb : b ≠ Byte.newline := by
      rintro rfl
      exact absurd hcloses (by decide)
    obtain ⟨hb, rest', rfl, hmore⟩ := hreturned.exists_cons hb
    obtain ⟨hnone', hsome'⟩ := splitTrivia?_returned hmore
    rw [triviaRead_cons htrivia, if_neg hclose, if_neg hopens, if_pos hcloses] at hunits
    rw [splitArguments?_cons htrivia, splitArguments?_cons (hnone htrivia), if_neg hclose,
      if_neg hcomma, if_neg hopens, if_pos hcloses, if_neg hclose, if_neg hcomma, if_neg hopens,
      if_pos hcloses]
    exact (ih hmore (hstart.cons rest') hunits hnone' hsome').prepend hb htrivia (hnone htrivia)
      hstart
  | case7 depth b rest htrivia hclose hcomma hopens hcloses ih =>
    rw [triviaRead_cons htrivia, if_neg hclose, if_neg hopens, if_neg hcloses] at hunits
    cases hreturned with
    | @byte _ _ rest' hb hmore =>
      obtain ⟨hnone', hsome'⟩ := splitTrivia?_returned hmore
      rw [splitArguments?_cons htrivia, splitArguments?_cons (hnone htrivia), if_neg hclose,
        if_neg hcomma, if_neg hopens, if_neg hcloses, if_neg hclose, if_neg hcomma, if_neg hopens,
        if_neg hcloses]
      exact (ih hmore (hstart.cons rest') hunits hnone' hsome').prepend hb htrivia (hnone htrivia)
        hstart
    | @lineEnd _ rest' hmore =>
      -- The return is one more byte of the argument, and the next line starts behind both.
      obtain ⟨hnone', hsome'⟩ := splitTrivia?_returned hmore
      exact splitArguments?_lineEnd
        (ih hmore (.inr (by simp [atLineStart_cons])) hunits hnone' hsome')

end PlainSync.Source
