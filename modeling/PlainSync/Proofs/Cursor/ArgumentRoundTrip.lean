import PlainSync.Proofs.Cursor.Calls
import PlainSync.Proofs.Source.Balanced

/-!
# Argument lists are recovered

The ranges that are found behind an opening parenthesis lie side by side up to a closing one, with
one comma between each and the next. Balanced arguments that are written with commas between them
are found again, each as it was written.
-/

namespace PlainSync.Cursor

open Source

/-- Ranges that fill a text from an index up to `stop`, with one comma between each and the next. -/
inductive Tiles (text : Bytes) (stop : Nat) : Nat → List (Nat × Nat) → Prop
  | last {start : Nat} (hstop : start ≤ stop) : Tiles text stop start [(start, stop)]
  | comma {start comma : Nat} {more : List (Nat × Nat)} (hstart : start ≤ comma)
    (hcomma : text[comma]? = some Byte.comma) (hmore : Tiles text stop (comma + 1) more) :
    Tiles text stop start ((start, comma) :: more)

/-- The ranges of the arguments and the index of the closing parenthesis that belong to the opening
parenthesis at an index. -/
structure DelimitedBy (text : Bytes) (opening : Nat) (ranges : List (Nat × Nat)) (close : Nat) :
    Prop where
  closes : text[close]? = some Byte.closeParen
  /-- Only a list of white space has no ranges. -/
  tiles : Tiles text close (opening + 1) ranges ∨
    ranges = [] ∧ ∃ blank, bytes? text (opening + 1) close = some blank ∧
      blank.all Byte.isWhiteSpace

section Ranges

variable {text before behind : Bytes} {i : Nat}

/-- The ranges of stretches with commas between them fill the text up to the byte behind them. -/
theorem tiles_stretchRanges {b : UInt8} {first : Bytes} {more : List Bytes}
    (h : Between text before (first ++ (more.flatMap (Byte.comma :: ·) ++ b :: behind)) i) :
    Tiles text (i + (first ++ more.flatMap (Byte.comma :: ·)).length) i
      (stretchRanges i (first :: more)) := by
  induction more generalizing before first i with
  | nil =>
    rw [List.flatMap_nil, List.append_nil]
    exact .last (Nat.le_add_right _ _)
  | cons second more ih =>
    rw [List.flatMap_cons, List.cons_append, List.cons_append, List.append_assoc] at h
    refine .comma (Nat.le_add_right _ _) h.append.getElem?_cons ?_
    have hstop : i + (first ++ (second :: more).flatMap (Byte.comma :: ·)).length =
        i + first.length + 1 + (second ++ more.flatMap (Byte.comma :: ·)).length := by
      rw [List.flatMap_cons, List.cons_append, List.length_append, List.length_cons]
      omega
    rw [hstop]
    exact ih h.append.cons

/-- The ranges of stretches hold these stretches. -/
theorem Stretches.map_bytes? {stretches : List Bytes} (h : Stretches text before i stretches) :
    (stretchRanges i stretches).map (fun range => bytes? text range.1 range.2) =
      stretches.map some := by
  induction h with
  | nil => rfl
  | cons h _ _ _ ih => rw [stretchRanges, List.map_cons, List.map_cons, h.bytes?_append, ih]

/-- The ranges of an argument list tile it up to its parenthesis. -/
theorem delimitedBy_rangesOf {opening : Nat} {list : ArgumentList}
    (h : Between text before (list.inside ++ Byte.closeParen :: list.behind) (opening + 1)) :
    DelimitedBy text opening (stretchRanges (opening + 1) list.arguments)
      (opening + 1 + list.inside.length) where
  closes := h.append.getElem?_cons
  tiles := by
    by_cases hempty : list.more.isEmpty && list.first.all Byte.isWhiteSpace
    · refine .inr ⟨?_, list.inside, h.bytes?_append, ?_⟩
      · rw [ArgumentList.arguments, if_pos hempty]
        rfl
      · rw [Bool.and_eq_true, List.isEmpty_iff] at hempty
        rw [ArgumentList.inside, hempty.1, List.flatMap_nil, List.append_nil]
        exact hempty.2
    · rw [ArgumentList.arguments, if_neg hempty]
      rw [ArgumentList.inside, List.append_assoc] at h
      exact .inl (tiles_stretchRanges h)

/-- The ranges of a list hold its arguments, and what stands behind its closing parenthesis follows
on their close. -/
theorem rangesOf_holds {start : Nat} {list : ArgumentList}
    (h : Between text before (list.inside ++ Byte.closeParen :: list.behind) start) :
    (stretchRanges start list.arguments).map (fun range => bytes? text range.1 range.2) =
        list.arguments.map some ∧
      text.drop (start + list.inside.length + 1) = list.behind := by
  refine ⟨(stretches_arguments h).map_bytes?, ?_⟩
  have hbehind := h.append.cons
  rw [← hbehind.whole, ← hbehind.index, ← List.length_reverse, List.drop_left]

/-- An argument list is split by positions as its text is. -/
theorem splitRanges_behind {inner : Bytes} {start : Nat} (h : Between text before inner start) :
    splitRanges text 0 [] start start =
      some ((splitArguments? 0 inner).map fun list =>
        (stretchRanges start list.arguments, start + list.inside.length)) := by
  have hstretch : Between text before ([] ++ inner) start := h
  have hranges : splitRanges text 0 [] start start = _ := splitRanges_eq hstretch
  rw [hranges, funext (rangesOf_nil start)]

/-- Between what stands up to a byte and what stands behind it. -/
theorem between_of_getElem? {b : UInt8} (hbyte : text[i]? = some b) :
    Between text (text.take (i + 1)).reverse (text.drop (i + 1)) (i + 1) where
  whole := by rw [List.reverse_reverse, List.take_append_drop]
  index := by
    rw [List.length_reverse, List.length_take_of_le (List.getElem?_eq_some_iff.mp hbyte).1]

end Ranges

/-- Behind every opening parenthesis the loop stays within the text, and the ranges that it finds
fill the text up to a closing parenthesis. They hold the arguments that the recursive reading gives.
Balanced arguments are found again in every text, except that one argument of white space is
none. -/
theorem splitRanges_recovers :
    (∀ text opening, text[opening]? = some Byte.openParen →
      ∃ found, splitRanges text 0 [] (opening + 1) (opening + 1) = some found ∧
        (∀ ranges close, found = some (ranges, close) → DelimitedBy text opening ranges close) ∧
        (found.map fun cut =>
            (cut.1.map fun range => bytes? text range.1 range.2, text.drop (cut.2 + 1))) =
          (splitArguments? 0 (text.drop (opening + 1))).map fun list =>
            (list.arguments.map some, list.behind)) ∧
    (∀ front arguments behind, arguments ≠ [] → (∀ text ∈ arguments, Balanced false text) →
      let inside := [Byte.comma].intercalate arguments
      let text := front ++ Byte.openParen :: (inside ++ Byte.closeParen :: behind)
      let start := front.length + 1
      ∃ ranges, splitRanges text 0 [] start start = some (some (ranges, start + inside.length)) ∧
        if arguments.length = 1 ∧ inside.all Byte.isWhiteSpace then ranges = []
        else ranges.map (fun range => bytes? text range.1 range.2) = arguments.map some) := by
  refine ⟨?every, ?balanced⟩
  case every =>
    intro text opening hopening
    have hstart := between_of_getElem? hopening
    refine ⟨_, splitRanges_behind hstart, ?_, ?_⟩
    · intro ranges close hfound
      obtain ⟨list, hsplit, hcut⟩ := Option.map_eq_some_iff.mp hfound
      cases hcut
      exact delimitedBy_rangesOf (hstart.split (append_of_splitArguments? hsplit))
    · rw [Option.map_map]
      refine Option.map_congr fun list hsplit => ?_
      have hholds := rangesOf_holds (hstart.split (append_of_splitArguments? hsplit))
      exact Prod.ext hholds.1 hholds.2
  case balanced =>
    intro front arguments behind hne hbalanced inside text start
    obtain ⟨first, more, rfl⟩ := List.exists_cons_of_ne_nil hne
    obtain ⟨hfirst, hmore⟩ := List.forall_mem_cons.mp hbalanced
    let list : ArgumentList := ⟨first, more, behind⟩
    have hinside : list.inside = inside := (intercalate_comma first more).symm
    have hstart : Between text (Byte.openParen :: front.reverse)
        (list.inside ++ Byte.closeParen :: list.behind) start := by
      refine ⟨?_, ?_⟩
      · rw [hinside]
        simp [text, list]
      · simp [start]
    have hsplit :
        splitArguments? 0 (list.inside ++ Byte.closeParen :: list.behind) = some list := by
      rw [ArgumentList.inside, List.append_assoc]
      exact splitArguments?_of_balanced hfirst hmore behind
    refine ⟨stretchRanges start list.arguments, ?_, ?_⟩
    · rw [splitRanges_behind hstart, hsplit, Option.map_some, hinside]
    · have hholds := (rangesOf_holds hstart).1
      rw [ArgumentList.arguments_eq_ite, hinside] at hholds ⊢
      split
      · rfl
      · next hblank => rwa [if_neg hblank] at hholds

/-- Three arguments with commas and parentheses that do not count: `a[1,2]` in a group, `"),\""` in
a literal and `/*)*/b` in a comment. -/
theorem splitRanges_recovers_hidden :
    let group : Bytes := [97, Byte.openBracket, 49, Byte.comma, 50, Byte.closeBracket]
    let literal : Bytes :=
      [Byte.doubleQuote, Byte.closeParen, Byte.comma, Byte.backslash, Byte.doubleQuote,
        Byte.doubleQuote]
    let comment : Bytes := blockComment [Byte.closeParen] ++ [98]
    let arguments := [group, literal, comment]
    let text := 102 :: Byte.openParen ::
      ([Byte.comma].intercalate arguments ++ [Byte.closeParen, Byte.closeParen])
    arguments ≠ [] ∧ (∀ text ∈ arguments, Balanced false text) ∧
      text[1]? = some Byte.openParen ∧
      (∃ ranges, splitRanges text 0 [] 2 2 = some (some (ranges, 22)) ∧
        ranges.map (fun range => bytes? text range.1 range.2) = arguments.map some) ∧
      ∃ found, splitRanges text 0 [] 2 2 = some found ∧
        ∀ ranges close, found = some (ranges, close) → DelimitedBy text 1 ranges close := by
  intro group literal comment arguments text
  have hinside : Balanced true [49, Byte.comma, 50] :=
    .ordinary rfl (.comma (.ordinary rfl .nil))
  have hgroup : Balanced false group := .ordinary rfl (.group rfl rfl hinside .nil)
  have hbody : LiteralBody Byte.doubleQuote
      [Byte.closeParen, Byte.comma, Byte.backslash, Byte.doubleQuote] :=
    .byte (by decide) (by decide) (by decide)
      (.byte (by decide) (by decide) (by decide) (.escape .nil))
  have hliteral : Balanced false literal := .literal (.inl rfl) hbody .nil
  have hcomment : Balanced false comment := .comment (by decide) (.ordinary rfl .nil)
  have hbalanced : ∀ text ∈ arguments, Balanced false text := by
    simp only [arguments, List.forall_mem_cons]
    exact ⟨hgroup, hliteral, hcomment, nofun⟩
  have hfound := splitRanges_recovers.2 [102] arguments [Byte.closeParen] (by decide) hbalanced
  obtain ⟨found, heq, hdelimited, -⟩ := splitRanges_recovers.1 text 1 rfl
  exact ⟨by decide, hbalanced, rfl, hfound, found, heq, hdelimited⟩

end PlainSync.Cursor
