import PlainSync.Proofs.Cursor.Scanners
import PlainSync.Proofs.Source.Cut

/-!
# Argument lists with a cursor

The directives and the argument lists of calls, found by loops over indices. An argument list is
read as the ranges between its outer commas, which lie side by side with one byte between them.
-/

namespace PlainSync.Cursor

open Source

/-- The first directive that begins between two indices, if there is one. -/
def findDirective (text : Bytes) (i stop : Nat) : Option (Option Nat) := do
  if i < stop then
    match ← skipTrivia text i with
    | some next =>
      let ⟨next, _⟩ ← ahead? i next
      findDirective text next stop
    | none =>
      if (← text[i]?) = Byte.hash then
        if ← isLineStart text i then return some i else findDirective text (i + 1) stop
      else findDirective text (i + 1) stop
  else return none
termination_by stop - i

/-- An argument list that ends at an index has no argument: nothing but white space stands in it
from `start` on. -/
def isEmptyList (text : Bytes) (found : List (Nat × Nat)) (start i : Nat) : Option Bool := do
  if found = [] then return (← bytes? text start i).all Byte.isWhiteSpace else return false

/-- The ranges of the arguments of a call and the index of its closing parenthesis, if it has one.
The argument at the index began at `start`, and those in front of it were found. -/
def splitRanges (text : Bytes) (depth : Nat) (found : List (Nat × Nat)) (start i : Nat) :
    Option (Option (List (Nat × Nat) × Nat)) := do
  if i < text.length then
    match ← skipTrivia text i with
    | some next =>
      let ⟨next, _⟩ ← ahead? i next
      splitRanges text depth found start next
    | none =>
      let b ← text[i]?
      if Byte.opensGroup b then splitRanges text (depth + 1) found start (i + 1)
      else if b = Byte.closeParen ∧ depth = 0 then
        if ← isEmptyList text found start i then return some ([], i)
        else return some (found ++ [(start, i)], i)
      else if Byte.closesGroup b then splitRanges text (depth - 1) found start (i + 1)
      else if b = Byte.comma ∧ depth = 0 then
        splitRanges text depth (found ++ [(start, i)]) (i + 1) (i + 1)
      else splitRanges text depth found start (i + 1)
  else return none
termination_by text.length - i

variable {text before rest unit behind : Bytes} {b : UInt8} {i : Nat}

/-! ## Directives -/

/-- No directive is found in an empty stretch. -/
theorem findDirective_of_le {stop : Nat} (hstop : stop ≤ i) :
    findDirective text i stop = some none := by
  rw [findDirective, if_neg (Nat.not_lt.mpr hstop)]
  rfl

/-- The search goes on behind a comment or literal. -/
theorem findDirective_trivia {stop : Nat} (h : Between text before rest i) (hstop : i < stop)
    (htrivia : splitTrivia? rest = some (unit, behind)) :
    findDirective text i stop = findDirective text (i + unit.length) stop := by
  rw [findDirective, if_pos hstop, skipTrivia_some h htrivia]
  simp only [Option.bind_eq_bind, Option.bind_some,
    ahead?_add i (length_pos_of_splitTrivia? htrivia)]

/-- What the next byte means to the search for a directive. -/
theorem findDirective_cons {stop : Nat} (h : Between text before (b :: rest) i) (hstop : i < stop)
    (htrivia : splitTrivia? (b :: rest) = none) :
    findDirective text i stop =
      if b = Byte.hash ∧ atLineStart before then some (some i)
      else findDirective text (i + 1) stop := by
  rw [findDirective, if_pos hstop, skipTrivia_none h htrivia, h.getElem?_cons, isLineStart_eq h]
  simp only [Option.bind_eq_bind, Option.bind_some]
  by_cases hhash : b = Byte.hash
  · simp [hhash]
  · simp [hhash]

/-- The loop finds the first directive of a stretch. -/
theorem findDirective_eq {stop : Nat} (h : Between text before rest i)
    (hstop : stop ≤ text.length) :
    findDirective text i stop = some ((findDirective? before rest (stop - i)).map (i + ·)) := by
  generalize hspan : stop - i = span
  fun_induction findDirective? before rest span generalizing i with
  | case1 before rest => exact findDirective_of_le (by omega)
  | case2 before rest span hne unit behind htrivia ih =>
    have hbehind := (h.split (append_of_splitTrivia? htrivia)).append
    rw [findDirective_trivia h (by omega) htrivia, ih hbehind (by omega), Option.map_map]
    simp only [Function.comp_def, Nat.add_assoc]
  | case3 before span hne htrivia =>
    have hlength : text.length = i := h.length_eq
    omega
  | case4 before span hne b rest htrivia hhash =>
    rw [findDirective_cons h (by omega) htrivia, if_pos hhash]
    rfl
  | case5 before span hne b rest htrivia hhash ih =>
    rw [findDirective_cons h (by omega) htrivia, if_neg hhash, ih h.cons (by omega),
      Option.map_map]
    simp only [Function.comp_def, Nat.add_assoc]

/-! ## Ranges -/

/-- The ranges of stretches that lie side by side with one byte between them. -/
def stretchRanges (start : Nat) : List Bytes → List (Nat × Nat)
  | [] => []
  | stretch :: more =>
    (start, start + stretch.length) :: stretchRanges (start + stretch.length + 1) more

/-- The ranges of the arguments of a list of which the first begins at `start`. A single stretch of
white space is no argument. -/
def argumentRanges (found : List (Nat × Nat)) (start : Nat) (list : ArgumentList) :
    List (Nat × Nat) :=
  if found = [] ∧ list.more = [] ∧ list.first.all Byte.isWhiteSpace then []
  else found ++ stretchRanges start (list.first :: list.more)

/-- Where the arguments of a list stand that is read from its start. -/
theorem argumentRanges_nil (start : Nat) (list : ArgumentList) :
    argumentRanges [] start list = stretchRanges start list.arguments := by
  unfold argumentRanges ArgumentList.arguments
  by_cases hempty : list.more = [] ∧ list.first.all Byte.isWhiteSpace
  · rw [if_pos ⟨rfl, hempty⟩, if_pos (by simpa using hempty)]
    rfl
  · rw [if_neg fun h => hempty h.2, if_neg (by simpa using hempty)]
    rfl

/-- A comma ends a stretch and begins the next one. -/
theorem argumentRanges_separate (found : List (Nat × Nat)) (start : Nat) (stretch : Bytes)
    (list : ArgumentList) :
    argumentRanges found start (list.separate.prepend stretch) =
      argumentRanges (found ++ [(start, start + stretch.length)]) (start + stretch.length + 1)
        list := by
  simp [argumentRanges, ArgumentList.prepend, ArgumentList.separate, stretchRanges]

/-- A list is empty if it is one stretch of white space. -/
theorem isEmptyList_eq {found : List (Nat × Nat)} {start : Nat} {stretch : Bytes}
    (h : Between text before (stretch ++ rest) start) :
    isEmptyList text found start (start + stretch.length) =
      some (decide (found = [] ∧ stretch.all Byte.isWhiteSpace)) := by
  rw [isEmptyList, h.bytes?_append]
  by_cases hfound : found = []
  · simp only [hfound, if_true, true_and, Bool.decide_eq_true]
    rfl
  · simp [hfound]

section Step

variable {depth start : Nat} {found : List (Nat × Nat)}

/-- Arguments go on behind a comment or literal. -/
theorem splitRanges_trivia (h : Between text before rest i)
    (htrivia : splitTrivia? rest = some (unit, behind)) :
    splitRanges text depth found start i =
      splitRanges text depth found start (i + unit.length) := by
  have hlt : i < text.length := by
    have hshort := length_lt_of_splitTrivia? htrivia
    rw [h.length_eq]
    omega
  rw [splitRanges, if_pos hlt, skipTrivia_some h htrivia]
  simp only [Option.bind_eq_bind, Option.bind_some,
    ahead?_add i (length_pos_of_splitTrivia? htrivia)]

/-- What the next byte means to an argument list. -/
theorem splitRanges_cons (h : Between text before (b :: rest) i)
    (htrivia : splitTrivia? (b :: rest) = none) :
    splitRanges text depth found start i =
      if Byte.opensGroup b then splitRanges text (depth + 1) found start (i + 1)
      else if b = Byte.closeParen ∧ depth = 0 then do
        if ← isEmptyList text found start i then return some ([], i)
        else return some (found ++ [(start, i)], i)
      else if Byte.closesGroup b then splitRanges text (depth - 1) found start (i + 1)
      else if b = Byte.comma ∧ depth = 0 then
        splitRanges text depth (found ++ [(start, i)]) (i + 1) (i + 1)
      else splitRanges text depth found start (i + 1) := by
  rw [splitRanges, if_pos h.lt, skipTrivia_none h htrivia, h.getElem?_cons]
  rfl

end Step

/-- The ranges of the arguments of a list and the index of its closing parenthesis. The bytes
`stretch` in front of it belong to its first argument. -/
def rangesOf (found : List (Nat × Nat)) (start : Nat) (stretch : Bytes) (list : ArgumentList) :
    List (Nat × Nat) × Nat :=
  (argumentRanges found start (list.prepend stretch), start + stretch.length + list.inside.length)

/-- Text in front of a list belongs to its first stretch. -/
theorem map_rangesOf_prepend (found : List (Nat × Nat)) (start : Nat) (stretch unit : Bytes)
    (list? : Option ArgumentList) :
    (list?.map (·.prepend unit)).map (rangesOf found start stretch) =
      list?.map (rangesOf found start (stretch ++ unit)) := by
  cases list? with
  | none => rfl
  | some list =>
    simp [rangesOf, ArgumentList.prepend, ArgumentList.inside, Nat.add_assoc]

/-- A comma in front of a list ends a stretch. -/
theorem map_rangesOf_separate (found : List (Nat × Nat)) (start : Nat) (stretch : Bytes)
    (list? : Option ArgumentList) :
    (list?.map (·.separate)).map (rangesOf found start stretch) =
      list?.map (rangesOf (found ++ [(start, start + stretch.length)])
        (start + stretch.length + 1) []) := by
  cases list? with
  | none => rfl
  | some list =>
    refine congrArg some (Prod.ext (argumentRanges_separate found start stretch list) ?_)
    simp only [rangesOf, ArgumentList.inside_separate, List.length_cons, List.length_nil]
    omega

/-- A byte that stands inside an argument. -/
theorem splitRanges_byte {depth depth' start : Nat} {found : List (Nat × Nat)} {stretch : Bytes}
    (h : Between text before (stretch ++ b :: rest) start)
    (hloop : splitRanges text depth found start (start + stretch.length) =
      splitRanges text depth' found start (start + stretch.length + 1))
    (hlist : splitArguments? depth (b :: rest) = (splitArguments? depth' rest).map (·.prepend [b]))
    (ih : ∀ {stretch}, Between text before (stretch ++ rest) start →
      splitRanges text depth' found start (start + stretch.length) =
        some ((splitArguments? depth' rest).map (rangesOf found start stretch))) :
    splitRanges text depth found start (start + stretch.length) =
      some ((splitArguments? depth (b :: rest)).map (rangesOf found start stretch)) := by
  have hstretch : Between text before ((stretch ++ [b]) ++ rest) start := by
    rwa [List.append_assoc]
  rw [hloop, hlist, map_rangesOf_prepend, ← ih hstretch, List.length_append, ← Nat.add_assoc]
  rfl

/-- The loop reads an argument list of which the bytes `stretch` have been read. -/
theorem splitRanges_eq {depth start : Nat} {found : List (Nat × Nat)} {stretch : Bytes}
    (h : Between text before (stretch ++ rest) start) :
    splitRanges text depth found start (start + stretch.length) =
      some ((splitArguments? depth rest).map (rangesOf found start stretch)) := by
  induction depth, rest using splitArguments?.induct generalizing found start stretch before with
  | case1 depth rest unit behind htrivia ih =>
    have hstretch : Between text before ((stretch ++ unit) ++ behind) start := by
      rwa [List.append_assoc, append_of_splitTrivia? htrivia]
    rw [splitRanges_trivia h.append htrivia, splitArguments?_trivia htrivia,
      map_rangesOf_prepend, ← ih hstretch, List.length_append, Nat.add_assoc]
  | case2 depth htrivia =>
    rw [splitRanges, if_neg h.append.not_lt, splitArguments?_nil]
    rfl
  | case3 depth b rest htrivia hcloses =>
    have hopens : ¬ Byte.opensGroup b := by
      rw [hcloses.1]
      decide
    rw [splitRanges_cons h.append htrivia, if_neg hopens, if_pos hcloses,
      splitArguments?_cons htrivia, if_pos hcloses, isEmptyList_eq h]
    have hprepend : (⟨[], [], rest⟩ : ArgumentList).prepend stretch = ⟨stretch, [], rest⟩ := by
      rw [ArgumentList.prepend, List.append_nil]
    simp only [Option.bind_eq_bind, Option.bind_some, decide_eq_true_eq, Option.map_some,
      rangesOf, argumentRanges, hprepend, true_and]
    by_cases hempty : found = [] ∧ stretch.all Byte.isWhiteSpace
    · rw [if_pos hempty, if_pos hempty]
      rfl
    · rw [if_neg hempty, if_neg hempty]
      rfl
  | case4 depth b rest htrivia hcloses hseparates ih =>
    have hgroup : ¬ Byte.opensGroup b ∧ ¬ Byte.closesGroup b := by
      rw [hseparates.1]
      decide
    rw [splitRanges_cons h.append htrivia, if_neg hgroup.1, if_neg hcloses, if_neg hgroup.2,
      if_pos hseparates, splitArguments?_cons htrivia, if_neg hcloses, if_pos hseparates,
      map_rangesOf_separate]
    have hstretch : Between text (b :: (stretch.reverse ++ before)) ([] ++ rest)
        (start + stretch.length + 1) := h.append.cons
    exact ih hstretch
  | case5 depth b rest htrivia hcloses hseparates hopens ih =>
    refine splitRanges_byte h ?loop ?arguments ih
    case loop => rw [splitRanges_cons h.append htrivia, if_pos hopens]
    case arguments =>
      rw [splitArguments?_cons htrivia, if_neg hcloses, if_neg hseparates, if_pos hopens]
  | case6 depth b rest htrivia hcloses hseparates hopens hclosing ih =>
    refine splitRanges_byte h ?loop ?arguments ih
    case loop =>
      rw [splitRanges_cons h.append htrivia, if_neg hopens, if_neg hcloses, if_pos hclosing]
    case arguments =>
      rw [splitArguments?_cons htrivia, if_neg hcloses, if_neg hseparates, if_neg hopens,
        if_pos hclosing]
  | case7 depth b rest htrivia hcloses hseparates hopens hclosing ih =>
    refine splitRanges_byte h ?loop ?arguments ih
    case loop =>
      rw [splitRanges_cons h.append htrivia, if_neg hopens, if_neg hcloses, if_neg hclosing,
        if_neg hseparates]
    case arguments =>
      rw [splitArguments?_cons htrivia, if_neg hcloses, if_neg hseparates, if_neg hopens,
        if_neg hclosing]

/-! ## Stretches -/

/-- Stretches of a text lie side by side from an index on. The byte behind each is ASCII and ends no
line. -/
inductive Stretches (text : Bytes) : Bytes → Nat → List Bytes → Prop
  | nil {before : Bytes} {i : Nat} : Stretches text before i []
  | cons {before stretch rest : Bytes} {b : UInt8} {i : Nat} {more : List Bytes}
    (h : Between text before (stretch ++ b :: rest) i) (hascii : b < 128) (hline : b ≠ Byte.newline)
    (hmore : Stretches text (b :: (stretch.reverse ++ before)) (i + stretch.length + 1) more) :
    Stretches text before i (stretch :: more)

/-- Every stretch has a place. -/
theorem length_stretchRanges (start : Nat) (stretches : List Bytes) :
    (stretchRanges start stretches).length = stretches.length := by
  induction stretches generalizing start with
  | nil => rfl
  | cons stretch more ih => exact congrArg (· + 1) (ih _)

/-- The first stretches have the first places. -/
theorem take_stretchRanges (start count : Nat) (stretches : List Bytes) :
    (stretchRanges start stretches).take count = stretchRanges start (stretches.take count) := by
  induction stretches generalizing start count with
  | nil => rw [stretchRanges, List.take_nil, List.take_nil, stretchRanges]
  | cons stretch more ih =>
    cases count with
    | zero => rfl
    | succ count => exact congrArg (_ :: ·) (ih _ _)

/-- The first stretches stand where they stood among all. -/
theorem Stretches.take {stretches : List Bytes} (h : Stretches text before i stretches)
    (count : Nat) : Stretches text before i (stretches.take count) := by
  induction h generalizing count with
  | nil =>
    rw [List.take_nil]
    exact .nil
  | cons h hascii hline hmore ih =>
    cases count with
    | zero => exact .nil
    | succ count => exact .cons h hascii hline (ih count)

/-- What stands between the parentheses of a call is cut at its outer commas. -/
theorem stretches_cons {first : Bytes} {more : List Bytes}
    (h : Between text before
      (first ++ (more.flatMap (Byte.comma :: ·) ++ Byte.closeParen :: behind)) i) :
    Stretches text before i (first :: more) := by
  induction more generalizing before first i with
  | nil => exact .cons h (by decide) (by decide) .nil
  | cons second more ih =>
    rw [List.flatMap_cons, List.cons_append, List.cons_append, List.append_assoc] at h
    exact .cons h (by decide) (by decide) (ih h.append.cons)

/-- The arguments of a call lie side by side. -/
theorem stretches_arguments {list : ArgumentList}
    (h : Between text before (list.inside ++ Byte.closeParen :: list.behind) i) :
    Stretches text before i list.arguments := by
  unfold ArgumentList.arguments
  split
  · exact .nil
  · rw [ArgumentList.inside, List.append_assoc] at h
    exact stretches_cons h

end PlainSync.Cursor
