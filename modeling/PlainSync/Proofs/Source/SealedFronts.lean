import PlainSync.Proofs.Source.LineEndingLists
import PlainSync.Proofs.Source.LineStarts

/-!
# What is read in front of a byte

A text in front of a byte that is read on its own is read to its end, whatever stands there in the
place of that byte. So an argument list goes on behind the text as it did.
-/

namespace PlainSync.Source

open Bytes

/-! ## Units -/

/-- A unit of a text, and the index at which it stands. -/
structure ReadUnit where
  start : Nat
  text : Bytes
  deriving DecidableEq, Repr

/-- Units that stand one behind the other from an index on. -/
def placeUnits (start : Nat) : List Bytes → List ReadUnit
  | [] => []
  | text :: more => ⟨start, text⟩ :: placeUnits (start + text.length) more

/-- The unit does not hold the byte at an index together with others, and it is no slash directly in
front of that byte. -/
def ReadUnit.LeavesAlone (index : Nat) (unit : ReadUnit) : Prop :=
  (unit.start ≤ index ∧ index < unit.start + unit.text.length → unit.text.length = 1) ∧
    (unit.start + unit.text.length = index → unit.text ≠ [Byte.slash])

instance (index : Nat) (unit : ReadUnit) : Decidable (unit.LeavesAlone index) :=
  inferInstanceAs (Decidable (_ ∧ _))

/-- A unit that leaves one of its bytes alone is that byte. -/
theorem ReadUnit.LeavesAlone.eq_nil {start : Nat} {front back : Bytes} {b : UInt8}
    (halone : LeavesAlone (start + front.length) ⟨start, front ++ b :: back⟩) :
    front = [] ∧ back = [] := by
  have hlength : (front ++ b :: back).length = front.length + (back.length + 1) := by simp
  have hone := halone.1 ⟨Nat.le_add_right _ _, by dsimp only; omega⟩
  dsimp only at hone
  exact ⟨List.eq_nil_of_length_eq_zero (by omega), List.eq_nil_of_length_eq_zero (by omega)⟩

/-- How many groups deep the text behind a byte stands. -/
def depthBehind (depth : Nat) (b : UInt8) : Nat :=
  if Byte.opensGroup b then depth + 1 else if Byte.closesGroup b then depth - 1 else depth

/-- The comments, the literals and the other bytes that are read while an argument list is cut,
`depth` groups deep, up to its closing parenthesis. -/
def listUnits (depth : Nat) (text : Bytes) : List Bytes :=
  match _trivia : splitTrivia? text with
  | some (unit, behind) => unit :: listUnits depth behind
  | none =>
    match text with
    | [] => []
    | b :: rest =>
      if b = Byte.closeParen ∧ depth = 0 then [] else [b] :: listUnits (depthBehind depth b) rest
termination_by text.length
decreasing_by
  · exact length_lt_of_splitTrivia? _trivia
  · simp

section Steps

variable {text unit behind rest : Bytes} {b : UInt8} {depth : Nat}

/-- A comment or literal is one unit of a list. -/
theorem listUnits_trivia (htrivia : splitTrivia? text = some (unit, behind)) :
    listUnits depth text = unit :: listUnits depth behind := by
  rw [listUnits]
  split
  · next hsplit =>
    rw [htrivia, Option.some.injEq, Prod.mk.injEq] at hsplit
    rw [hsplit.1, hsplit.2]
  · next hsplit =>
    rw [htrivia] at hsplit
    cases hsplit

/-- Any other byte is one unit of a list. -/
theorem listUnits_cons (htrivia : splitTrivia? (b :: rest) = none)
    (hclose : ¬ (b = Byte.closeParen ∧ depth = 0)) :
    listUnits depth (b :: rest) = [b] :: listUnits (depthBehind depth b) rest := by
  rw [listUnits]
  split
  · next hsplit =>
    rw [htrivia] at hsplit
    cases hsplit
  · exact if_neg hclose

/-- A byte in an argument list, with the list that goes on behind it. -/
def ArgumentList.put (depth : Nat) (b : UInt8) (list : ArgumentList) : ArgumentList :=
  if b = Byte.comma ∧ depth = 0 then list.separate else list.prepend [b]

/-- A byte in a list makes it one byte longer. -/
theorem ArgumentList.length_inside_put (list : ArgumentList) :
    (list.put depth b).inside.length = list.inside.length + 1 := by
  unfold ArgumentList.put
  split
  · rw [inside_separate, List.length_cons]
  · rw [inside_prepend, List.singleton_append, List.length_cons]

/-- A byte that does not close the list is put into it. -/
theorem splitArguments?_byte (htrivia : splitTrivia? (b :: rest) = none)
    (hclose : ¬ (b = Byte.closeParen ∧ depth = 0)) :
    splitArguments? depth (b :: rest) =
      (splitArguments? (depthBehind depth b) rest).map (·.put depth b) := by
  rw [splitArguments?_cons htrivia, if_neg hclose]
  unfold ArgumentList.put depthBehind
  by_cases hcomma : b = Byte.comma ∧ depth = 0
  · obtain ⟨rfl, rfl⟩ := hcomma
    rfl
  · simp only [if_neg hcomma]
    split
    · rfl
    · split <;> rfl

end Steps

/-! ## Sealed text -/

/-- Text that is read to its end, whatever stands behind it: no comment or literal goes on there,
and no slash at its end begins a comment. -/
inductive Sealed : Bytes → Prop
  | nil : Sealed []
  | trivia {unit front : Bytes}
    (hunit : ∀ tail, splitTrivia? (unit ++ (front ++ tail)) = some (unit, front ++ tail))
    (hfront : Sealed front) : Sealed (unit ++ front)
  | byte {b : UInt8} {front : Bytes} (hb : ∀ tail, splitTrivia? (b :: (front ++ tail)) = none)
    (hfront : Sealed front) : Sealed (b :: front)

/-- A text in two parts, and one in three parts with one byte in the middle: the first part ends in
front of that byte, or it holds the byte. -/
theorem append_eq_append_cons {unit rest front behind : Bytes} {b : UInt8}
    (hwhole : unit ++ rest = front ++ b :: behind) :
    (∃ front', front = unit ++ front' ∧ rest = front' ++ b :: behind) ∨
      ∃ back, unit = front ++ b :: back := by
  rcases List.append_eq_append_iff.mp hwhole with ⟨front', rfl, hrest⟩ | ⟨back, rfl, hback⟩
  · exact .inl ⟨front', rfl, hrest⟩
  · cases back with
    | nil => exact .inl ⟨[], by simp, hback.symm⟩
    | cons c back =>
      obtain rfl : b = c := (List.cons.inj hback).1
      exact .inr ⟨back, rfl⟩

/-- A blank is no newline. -/
theorem isBlank_ne_newline {b : UInt8} (hb : Byte.isBlank b) : b ≠ Byte.newline := by
  rintro rfl
  exact absurd hb (by decide)

/-- Blanks stand alone. -/
theorem standsAlone_of_isBlank {b : UInt8} (hb : Byte.isBlank b) : standsAlone b := by
  simp only [Byte.isBlank, Bool.or_eq_true, decide_eq_true_eq] at hb
  rcases hb with rfl | rfl <;> decide

section InFrontOf

variable {b c : UInt8} {front behind unit : Bytes}

/-- A comment or literal that is over in front of a blank is over in front of every text. -/
theorem splitTrivia?_of_blank (hb : Byte.isBlank b)
    (htrivia : splitTrivia? (unit ++ (front ++ b :: behind)) = some (unit, front ++ b :: behind))
    (tail : Bytes) : splitTrivia? (unit ++ (front ++ tail)) = some (unit, front ++ tail) := by
  cases front with
  | nil =>
    obtain ⟨c, rest, rfl⟩ := List.exists_cons_of_length_pos (length_pos_of_splitTrivia? htrivia)
    have hlonger :
        splitTrivia? (c :: (rest ++ [b] ++ behind)) = some (c :: rest, [b] ++ behind) := by
      rw [List.append_assoc]
      exact htrivia
    exact splitTrivia?_of_over (isBlank_ne_newline hb) (splitTrivia?_cut hlonger) tail
  | cons d front => exact splitTrivia?_exchange tail (List.cons_ne_nil d front) htrivia

/-- A byte in front of a blank that begins no comment or literal there begins none in front of
any text, unless it is a slash. -/
theorem splitTrivia?_of_blank_none (hslash : front = [] → c ≠ Byte.slash)
    (htrivia : splitTrivia? (c :: (front ++ b :: behind)) = none) (tail : Bytes) :
    splitTrivia? (c :: (front ++ tail)) = none := by
  cases front with
  | nil =>
    simp only [List.nil_append, splitTrivia?, if_neg (hslash rfl)] at htrivia ⊢
    split at htrivia
    · cases htrivia
    · next hquote => rw [if_neg hquote]
  | cons d front => exact splitTrivia?_exchange_none tail (List.cons_ne_nil d front) htrivia

/-- A lexeme that is over in front of a blank is over in front of a slash, unless it is a slash that
stands directly there. -/
theorem nextLexeme_slash {before text : Bytes} {lexeme : Lexeme} (hb : Byte.isBlank b)
    (hnext : nextLexeme before c (text ++ (front ++ b :: behind)) = (lexeme, front ++ b :: behind))
    (hslash : front = [] → lexeme.text ≠ [Byte.slash]) (tail : Bytes) :
    nextLexeme before c (text ++ (front ++ Byte.slash :: tail)) =
      (lexeme, front ++ Byte.slash :: tail) := by
  cases front with
  | nil =>
    have hlonger : nextLexeme before c (text ++ [b] ++ behind) = (lexeme, [b] ++ behind) := by
      rw [List.append_assoc]
      exact hnext
    have htext : lexeme.text = c :: text := List.append_cancel_right (append_of_nextLexeme hnext)
    have hnext' := nextLexeme_cut hlonger
    refine nextLexeme_of_endsWord hnext' (isBlank_ne_newline hb) ?_ fun hsame => ?_
    · rintro d ⟨⟩
      decide
    · exact absurd (htext.trans hsame) (hslash rfl)
  | cons d front =>
    have halphanumeric : Byte.isAlphanumeric b = false := by
      have halone := standsAlone_of_isBlank hb
      simp only [standsAlone, Bool.and_eq_true, Bool.not_eq_true', Byte.continuesIdentifier,
        Bool.or_eq_false_iff] at halone
      exact halone.2.2
    refine nextLexeme_of_sight hnext (sight_append (List.cons_ne_nil d front) ?_)
    simp only [List.head?_cons, Option.any_some, halphanumeric]
    decide

end InFrontOf

/-- In front of a blank that is read on its own, an argument list that goes on there is sealed. -/
theorem sealed_of_listUnits {b : UInt8} (hb : Byte.isBlank b) {behind front text : Bytes}
    {depth start : Nat} (htext : text = front ++ b :: behind)
    (hunits : ∀ unit ∈ placeUnits start (listUnits depth text),
      unit.LeavesAlone (start + front.length))
    (hopen : ∀ list, splitArguments? depth text = some list →
      front.length ≤ list.inside.length) : Sealed front := by
  induction depth, text using listUnits.induct generalizing front start with
  | case1 depth text unit rest htrivia ih =>
    rw [listUnits_trivia htrivia, placeUnits, List.forall_mem_cons] at hunits
    obtain ⟨halone, hmore⟩ := hunits
    have hwhole := (append_of_splitTrivia? htrivia).trans htext
    rcases append_eq_append_cons hwhole with ⟨front', rfl, rfl⟩ | ⟨back, rfl⟩
    · rw [List.length_append, ← Nat.add_assoc] at hmore
      have hfound : splitTrivia? (unit ++ (front' ++ b :: behind)) =
          some (unit, front' ++ b :: behind) := by
        rw [hwhole, ← htext, htrivia]
      refine .trivia (splitTrivia?_of_blank hb hfound) (ih rfl hmore fun list hlist => ?_)
      have hlonger := hopen _ ((splitArguments?_trivia htrivia).trans (congrArg _ hlist))
      rw [ArgumentList.inside_prepend, List.length_append, List.length_append] at hlonger
      omega
    · rw [halone.eq_nil.1]
      exact .nil
  | case2 depth htrivia => simp at htext
  | case3 depth c rest htrivia hclose =>
    cases front with
    | nil => exact .nil
    | cons c front =>
      have hlist := hopen ⟨[], [], rest⟩ (by rw [splitArguments?_cons htrivia, if_pos hclose])
      simp [ArgumentList.inside] at hlist
  | case4 depth c rest htrivia hclose ih =>
    cases front with
    | nil => exact .nil
    | cons d front =>
      obtain ⟨rfl, rfl⟩ := List.cons.inj htext
      rw [listUnits_cons htrivia hclose, placeUnits, List.forall_mem_cons] at hunits
      obtain ⟨⟨-, hslash⟩, hmore⟩ := hunits
      dsimp only at hslash
      rw [List.length_singleton, List.length_cons, Nat.add_comm front.length, ← Nat.add_assoc]
        at hmore
      have hnone : front = [] → c ≠ Byte.slash := by
        rintro rfl rfl
        exact hslash rfl rfl
      refine .byte (splitTrivia?_of_blank_none hnone htrivia) (ih rfl hmore fun list hlist => ?_)
      have hlonger := hopen _ ((splitArguments?_byte htrivia hclose).trans (congrArg _ hlist))
      rw [ArgumentList.length_inside_put, List.length_cons] at hlonger
      omega

/-! ## Argument lists behind sealed text -/

namespace ArgumentList

/-- Put stretches that are over, and the beginning of the next one, in front of a list. -/
def after (passed : List Bytes) (current : Bytes) (list : ArgumentList) : ArgumentList :=
  match passed with
  | [] => list.prepend current
  | first :: more => ⟨first, more ++ (current ++ list.first) :: list.more, list.behind⟩

variable (passed : List Bytes) (current : Bytes) (list : ArgumentList)

/-- The stretches of a list behind those that were passed. -/
theorem stretches_after :
    (list.after passed current).first :: (list.after passed current).more =
      passed ++ (current ++ list.first) :: list.more := by
  cases passed <;> rfl

/-- Text in front of a list leaves what stands behind it. -/
@[simp] theorem behind_after : (list.after passed current).behind = list.behind := by
  cases passed <;> rfl

/-- What stands inside a list behind what was passed. -/
theorem inside_after :
    (list.after passed current).inside =
      passed.flatMap (· ++ [Byte.comma]) ++ current ++ list.inside := by
  cases passed with
  | nil => exact inside_prepend current list
  | cons first more =>
    have hcommas (stretches : List Bytes) (tail : Bytes) :
        stretches.flatMap (Byte.comma :: ·) ++ Byte.comma :: tail =
          Byte.comma :: (stretches.flatMap (· ++ [Byte.comma]) ++ tail) := by
      induction stretches with
      | nil => rfl
      | cons stretch stretches ih => simp [ih]
    simp [after, inside, hcommas]

end ArgumentList

/-- An argument list goes on behind a text, `depth'` groups deep: the stretches `passed` of it are
over, and `current` is the beginning of the next one. -/
structure GoesOn (depth : Nat) (front : Bytes) (depth' : Nat) (passed : List Bytes)
    (current : Bytes) : Prop where
  front_eq : front = passed.flatMap (· ++ [Byte.comma]) ++ current
  split_eq (tail : Bytes) : splitArguments? depth (front ++ tail) =
    (splitArguments? depth' tail).map (·.after passed current)

/-- A unit stands in front of the text. -/
theorem GoesOn.prepend {depth depth₁ depth' : Nat} {front unit : Bytes} {passed : List Bytes}
    {current : Bytes} (hgoes : GoesOn depth₁ front depth' passed current)
    (hunit : ∀ tail, splitArguments? depth (unit ++ (front ++ tail)) =
      (splitArguments? depth₁ (front ++ tail)).map (·.prepend unit)) :
    ∃ passed current, GoesOn depth (unit ++ front) depth' passed current := by
  cases passed with
  | nil =>
    refine ⟨[], unit ++ current, ?_, fun tail => ?_⟩
    · rw [hgoes.front_eq]
      rfl
    · rw [List.append_assoc, hunit, hgoes.split_eq]
      exact map_prepend_prepend _ _ _
  | cons first more =>
    refine ⟨(unit ++ first) :: more, current, ?_, fun tail => ?_⟩
    · rw [hgoes.front_eq]
      simp
    · rw [List.append_assoc, hunit, hgoes.split_eq, Option.map_map]
      rfl

/-- An argument list that is not over within sealed text goes on behind it. -/
theorem Sealed.goesOn {front behind : Bytes} (hsealed : Sealed front) {depth : Nat}
    (hopen : ∀ list, splitArguments? depth (front ++ behind) = some list →
      front.length ≤ list.inside.length) :
    ∃ depth' passed current, GoesOn depth front depth' passed current := by
  induction hsealed generalizing depth with
  | nil => exact ⟨depth, [], [], rfl, fun tail => (map_prepend_nil _).symm⟩
  | @trivia unit front hunit _ ih =>
    have hstep (tail : Bytes) : splitArguments? depth (unit ++ (front ++ tail)) = _ :=
      splitArguments?_trivia (hunit tail)
    obtain ⟨depth', passed, current, hgoes⟩ := @ih depth fun list hlist => by
      have hlonger := hopen (list.prepend unit) (by rw [List.append_assoc, hstep, hlist]; rfl)
      rw [ArgumentList.inside_prepend, List.length_append, List.length_append] at hlonger
      omega
    exact ⟨depth', hgoes.prepend hstep⟩
  | @byte c front hc _ ih =>
    have hclose : ¬ (c = Byte.closeParen ∧ depth = 0) := by
      rintro ⟨rfl, rfl⟩
      have hlist := hopen ⟨[], [], front ++ behind⟩ (splitArguments?_cons (hc behind))
      simp [ArgumentList.inside] at hlist
    have hstep (tail : Bytes) := splitArguments?_byte (hc tail) hclose
    obtain ⟨depth', passed, current, hgoes⟩ := @ih (depthBehind depth c) fun list hlist => by
      have hlonger := hopen (list.put depth c) (by rw [List.cons_append, hstep, hlist]; rfl)
      rw [ArgumentList.length_inside_put, List.length_cons] at hlonger
      omega
    by_cases hcomma : c = Byte.comma ∧ depth = 0
    · refine ⟨depth', [] :: passed, current, ?_, fun tail => ?_⟩
      · rw [hgoes.front_eq, hcomma.1]
        simp
      · rw [List.cons_append, hstep, hgoes.split_eq, Option.map_map]
        refine congrArg (Option.map · _) (funext fun list => ?_)
        rw [Function.comp_apply, ArgumentList.put, if_pos hcomma]
        cases passed <;> rfl
    · have hput (tail : Bytes) : splitArguments? depth ([c] ++ (front ++ tail)) =
          (splitArguments? (depthBehind depth c) (front ++ tail)).map (·.prepend [c]) := by
        rw [List.singleton_append, hstep]
        simp only [ArgumentList.put, if_neg hcomma]
      exact ⟨depth', hgoes.prepend hput⟩

/-- The first directive stands in sealed text or behind it. -/
theorem Sealed.directiveLines?_append {front : Bytes} (hsealed : Sealed front)
    (before tail : Bytes) (span : Nat) :
    directiveLines? before (front ++ tail) (front.length + span) =
      (directiveLines? before front front.length).or
        ((directiveLines? (front.reverse ++ before) tail span).map (newlines front + ·)) := by
  have hor (first second : Option Nat) (lines lines' : Nat) :
      (first.or (second.map (lines' + ·))).map (lines + ·) =
        (first.map (lines + ·)).or (second.map (lines + lines' + ·)) := by
    cases first <;> cases second <;> simp [Nat.add_assoc]
  induction hsealed generalizing before with
  | nil =>
    have hnone : directiveLines? before [] 0 = none := by
      rw [directiveLines?, findDirective?_zero, Option.map_none]
    simp [hnone, newlines]
  | @trivia unit front hunit _ ih =>
    have hown := hunit []
    rw [List.append_nil] at hown
    rw [List.append_assoc, List.length_append, Nat.add_assoc, directiveLines?_trivia (hunit tail),
      directiveLines?_trivia hown, ih, hor, List.reverse_append, List.append_assoc, newlines_append]
  | @byte c front hc _ ih =>
    have hown := hc []
    rw [List.append_nil] at hown
    rw [List.cons_append, List.length_cons, Nat.add_right_comm, directiveLines?_cons (hc tail),
      directiveLines?_cons hown]
    split
    · rfl
    · rw [ih, hor, List.reverse_cons, List.append_assoc, List.singleton_append,
        newlines_cons c front]

end PlainSync.Source
