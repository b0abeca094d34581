import PlainSync.Proofs.Normalize.Lines
import PlainSync.Proofs.Source.Plain

/-!
# Nested calls

A call of a built-in whose arguments hold further calls, as a tree. A printed tree is
normalized to what the tree is translated to from the bottom up. Scanning recovers the tree
from its text because brackets are in order in every argument and no other text holds the name
of a built-in.
-/

namespace PlainSync.Source

open Bytes Reading

/-! ## Trees of calls -/

mutual

/-- A call of a built-in. -/
inductive CallTree where
  | call (builtin : Builtin) (arguments : List ArgumentTree)

/-- An argument: text, with calls in between. -/
inductive ArgumentTree where
  | text (other : Bytes)
  | before (other : Bytes) (call : CallTree) (rest : ArgumentTree)

end

mutual

/-- The source of a call. -/
def CallTree.print : CallTree → Bytes
  | .call builtin arguments =>
    builtin.spelling ++ Byte.openParen ::
      ([Byte.comma].intercalate (printArguments arguments) ++ [Byte.closeParen])

/-- The source of an argument. -/
def ArgumentTree.print : ArgumentTree → Bytes
  | .text other => other
  | .before other call rest => other ++ call.print ++ rest.print

/-- The sources of the arguments of a call. -/
def printArguments : List ArgumentTree → List Bytes
  | [] => []
  | argument :: more => argument.print :: printArguments more

end

/-- Text between calls: plain, and without the name of a built-in. -/
structure Inert (other : Bytes) : Prop where
  plain : Plain other
  callless : Callless (lexemes [] other)

instance (other : Bytes) : Decidable (Inert other) :=
  decidable_of_iff (Plain other ∧ Callless (lexemes [] other))
    ⟨fun hother => ⟨hother.1, hother.2⟩, fun hother => ⟨hother.plain, hother.callless⟩⟩

/-- The number of groups that are open behind an argument, its calls aside. -/
def ArgumentTree.depth? (depth : Nat) : ArgumentTree → Option Nat
  | .text other => bracketDepth? depth other
  | .before other _ rest => (bracketDepth? depth other).bind rest.depth?

mutual

/-- A call has the arguments that it needs, none of them blank. -/
def CallTree.WellFormed : CallTree → Prop
  | .call builtin arguments =>
    builtin.operandCount ≤ arguments.length ∧
      (∀ argument ∈ (printArguments arguments).take builtin.operandCount,
        ¬ argument.all Byte.isWhiteSpace) ∧
      ArgumentsWellFormed arguments

/-- Only calls, and text that does not go on in their names, make up an argument. -/
def ArgumentTree.WellFormed : ArgumentTree → Prop
  | .text other => Inert other
  | .before other call rest =>
    Inert other ∧ EndsApart other ∧ call.WellFormed ∧ rest.WellFormed

/-- The brackets of every argument are in order. -/
def ArgumentsWellFormed : List ArgumentTree → Prop
  | [] => True
  | argument :: more =>
    argument.WellFormed ∧ argument.depth? 0 = some 0 ∧ ArgumentsWellFormed more

end

mutual

/-- The text that a call is replaced by, the next free site number being `site`, and the site
number that is free behind it. Inner calls come first. -/
def CallTree.translate? (site : Nat) : CallTree → Option (Bytes × Nat)
  | .call builtin arguments => do
    let (texts, site) ← translateOperands? site builtin.operandCount arguments
    let pointer := texts.head?.getD []
    let text ← expand? builtin ⟨pointer, pointer, texts.tail⟩ (.numbered site)
    return (text, site + 1)

/-- The text of an argument with its calls replaced, likewise. -/
def ArgumentTree.translate? (site : Nat) : ArgumentTree → Option (Bytes × Nat)
  | .text other => some (other, site)
  | .before other call rest => do
    let (inner, site) ← call.translate? site
    let (behind, site) ← rest.translate? site
    return (other ++ inner ++ behind, site)

/-- The trimmed texts of the first `count` arguments with their calls replaced, likewise. -/
def translateOperands? (site count : Nat) : List ArgumentTree → Option (List Bytes × Nat)
  | [] => some ([], site)
  | argument :: more =>
    match count with
    | 0 => some ([], site)
    | count + 1 => do
      let (text, site) ← argument.translate? site
      let (texts, site) ← translateOperands? site count more
      return (text.trim :: texts, site)

end

mutual

/-- The calls that are replaced, in the order of their sites. -/
def CallTree.translated : CallTree → List Builtin
  | .call builtin arguments => translatedOperands builtin.operandCount arguments ++ [builtin]

def ArgumentTree.translated : ArgumentTree → List Builtin
  | .text _ => []
  | .before _ call rest => call.translated ++ rest.translated

def translatedOperands (count : Nat) : List ArgumentTree → List Builtin
  | [] => []
  | argument :: more =>
    match count with
    | 0 => []
    | count + 1 => argument.translated ++ translatedOperands count more

end

/-! ## The text of a tree -/

/-- Plain texts with commas between them are plain. -/
theorem plain_intercalate {texts : List Bytes} (htexts : ∀ text ∈ texts, Plain text) :
    Plain ([Byte.comma].intercalate texts) := by
  cases texts with
  | nil => exact fun b hb => absurd hb List.not_mem_nil
  | cons text more =>
    rw [intercalate_comma, plain_append]
    refine ⟨htexts text (by simp), fun b hb => ?_⟩
    obtain ⟨other, hother, hmem⟩ := List.mem_flatMap.mp hb
    rcases List.mem_cons.mp hmem with rfl | hin
    · decide
    · exact htexts other (by simp [hother]) b hin

mutual

/-- A printed call is plain text. -/
theorem CallTree.plain_print (call : CallTree) (hcall : call.WellFormed) : Plain call.print := by
  cases call with
  | call builtin arguments =>
    obtain ⟨-, -, harguments⟩ := hcall
    have hname := plain_of_joinsWord (@joinsWord_of_mem_spelling builtin)
    have hinside := plain_intercalate (plain_printArguments arguments harguments)
    rw [CallTree.print, plain_append, plain_cons, plain_append]
    exact ⟨hname, by decide, hinside, by decide⟩

/-- A well-formed argument is printed as plain text. -/
theorem ArgumentTree.plain_print (argument : ArgumentTree) (hargument : argument.WellFormed) :
    Plain argument.print := by
  cases argument with
  | text other => exact hargument.plain
  | before other call rest =>
    obtain ⟨hother, -, hcall, hrest⟩ := hargument
    rw [ArgumentTree.print, plain_append, plain_append]
    exact ⟨⟨hother.plain, call.plain_print hcall⟩, rest.plain_print hrest⟩

/-- Well-formed arguments are printed as plain texts. -/
theorem plain_printArguments (arguments : List ArgumentTree)
    (harguments : ArgumentsWellFormed arguments) :
    ∀ text ∈ printArguments arguments, Plain text := by
  cases arguments with
  | nil => exact fun text htext => absurd htext List.not_mem_nil
  | cons argument more =>
    obtain ⟨hargument, -, hmore⟩ := harguments
    rw [printArguments]
    intro text htext
    rcases List.mem_cons.mp htext with rfl | hin
    · exact argument.plain_print hargument
    · exact plain_printArguments more hmore text hin

end

/-! ## The arguments of a printed call -/

/-- An opening parenthesis opens a group. -/
theorem splitArguments?_openParen (depth : Nat) (tail : Bytes) :
    splitArguments? depth (Byte.openParen :: tail) =
      (splitArguments? (depth + 1) tail).map (·.prepend [Byte.openParen]) :=
  splitArguments?_plain_append depth tail (by decide)
    (rfl : bracketDepth? 0 [Byte.openParen] = some 1)

/-- A closing parenthesis closes a group. -/
theorem splitArguments?_closeParen (depth : Nat) (tail : Bytes) :
    splitArguments? (depth + 1) (Byte.closeParen :: tail) =
      (splitArguments? depth tail).map (·.prepend [Byte.closeParen]) :=
  splitArguments?_plain_append depth tail (by decide)
    (rfl : bracketDepth? 1 [Byte.closeParen] = some 0)

/-- A comma in a group belongs to its argument. -/
theorem splitArguments?_comma (depth : Nat) (tail : Bytes) :
    splitArguments? (depth + 1) (Byte.comma :: tail) =
      (splitArguments? (depth + 1) tail).map (·.prepend [Byte.comma]) :=
  splitArguments?_plain_append depth tail (by decide)
    (rfl : bracketDepth? 1 [Byte.comma] = some 1)

mutual

/-- A printed call belongs to one argument. -/
theorem CallTree.splitArguments?_print (call : CallTree) (hcall : call.WellFormed) (depth : Nat)
    (tail : Bytes) :
    splitArguments? depth (call.print ++ tail) =
      (splitArguments? depth tail).map (·.prepend call.print) := by
  cases call with
  | call builtin arguments =>
    obtain ⟨-, -, harguments⟩ := hcall
    have hname (tail : Bytes) := splitArguments?_plain_append 0 tail
      (plain_of_joinsWord (@joinsWord_of_mem_spelling builtin))
      (@bracketDepth?_of_joinsWord depth _ joinsWord_of_mem_spelling)
    rw [Nat.zero_add] at hname
    have hinside : splitArguments? (depth + 1)
        ([Byte.comma].intercalate (printArguments arguments) ++ Byte.closeParen :: tail) =
          (splitArguments? (depth + 1) (Byte.closeParen :: tail)).map
            (·.prepend ([Byte.comma].intercalate (printArguments arguments))) := by
      cases arguments with
      | nil => exact (map_prepend_nil _).symm
      | cons argument more =>
        obtain ⟨hargument, hdepth, hmore⟩ := harguments
        rw [printArguments, intercalate_comma, List.append_assoc]
        rw [argument.splitArguments?_print hargument (depth + 1) _ hdepth]
        rw [Nat.add_zero, splitArguments?_printArguments more hmore, map_prepend_prepend]
    rw [CallTree.print, List.append_assoc, List.cons_append, List.append_assoc,
      List.singleton_append, hname, splitArguments?_openParen, hinside,
      splitArguments?_closeParen, map_prepend_prepend, map_prepend_prepend, map_prepend_prepend]
    simp

/-- A printed argument belongs to one argument. -/
theorem ArgumentTree.splitArguments?_print (argument : ArgumentTree)
    (hargument : argument.WellFormed) (outer : Nat) {depth depth' : Nat} (tail : Bytes)
    (hdepth : argument.depth? depth = some depth') :
    splitArguments? (outer + depth) (argument.print ++ tail) =
      (splitArguments? (outer + depth') tail).map (·.prepend argument.print) := by
  cases argument with
  | text other => exact splitArguments?_plain_append outer tail hargument.plain hdepth
  | before other call rest =>
    obtain ⟨hother, -, hcall, hrest⟩ := hargument
    obtain ⟨middle, hfront, hback⟩ := Option.bind_eq_some_iff.mp hdepth
    rw [ArgumentTree.print, List.append_assoc, List.append_assoc,
      splitArguments?_plain_append outer _ hother.plain hfront,
      call.splitArguments?_print hcall, rest.splitArguments?_print hrest outer tail hback,
      map_prepend_prepend, map_prepend_prepend, List.append_assoc]

/-- Inside another call, so do printed arguments. -/
theorem splitArguments?_printArguments (arguments : List ArgumentTree)
    (harguments : ArgumentsWellFormed arguments) (depth : Nat) (tail : Bytes) :
    splitArguments? (depth + 1)
        ((printArguments arguments).flatMap (Byte.comma :: ·) ++ tail) =
      (splitArguments? (depth + 1) tail).map
        (·.prepend ((printArguments arguments).flatMap (Byte.comma :: ·))) := by
  cases arguments with
  | nil =>
    exact (map_prepend_nil _).symm
  | cons argument more =>
    obtain ⟨hargument, hdepth, hmore⟩ := harguments
    rw [printArguments, List.flatMap_cons, List.cons_append, List.cons_append, List.append_assoc,
      splitArguments?_comma, argument.splitArguments?_print hargument (depth + 1) _ hdepth,
      Nat.add_zero, splitArguments?_printArguments more hmore, map_prepend_prepend,
      map_prepend_prepend]
    rfl

end

/-- The arguments of a printed call are read back. -/
theorem splitArguments?_printed (arguments : List ArgumentTree)
    (harguments : ArgumentsWellFormed arguments) (tail : Bytes) :
    splitArguments? 0
        ([Byte.comma].intercalate (printArguments arguments) ++ Byte.closeParen :: tail) =
      some ⟨(printArguments arguments).headD [], (printArguments arguments).tail, tail⟩ := by
  have hclose : splitArguments? 0 (Byte.closeParen :: tail) = some ⟨[], [], tail⟩ := by
    rw [splitArguments?_cons (splitTrivia?_of_isPlain (by decide) _), if_pos ⟨rfl, rfl⟩]
  cases arguments with
  | nil => exact hclose
  | cons argument more =>
    rw [printArguments, intercalate_comma, List.append_assoc]
    induction more generalizing argument with
    | nil =>
      obtain ⟨hargument, hdepth, -⟩ := harguments
      have hfirst := argument.splitArguments?_print hargument 0 (Byte.closeParen :: tail) hdepth
      rw [Nat.add_zero, hclose] at hfirst
      rw [printArguments, List.flatMap_nil, List.nil_append, hfirst]
      simp [ArgumentList.prepend]
    | cons next more ih =>
      obtain ⟨hargument, hdepth, hmore⟩ := harguments
      have hfirst := argument.splitArguments?_print hargument 0
        (Byte.comma :: (next.print ++ ((printArguments more).flatMap (Byte.comma :: ·) ++
          Byte.closeParen :: tail))) hdepth
      rw [Nat.add_zero, splitArguments?_cons (splitTrivia?_of_isPlain (by decide) _),
        if_neg (by decide), if_pos ⟨rfl, rfl⟩, ih next hmore] at hfirst
      rw [printArguments, List.flatMap_cons, List.cons_append, List.cons_append,
        List.append_assoc, hfirst]
      simp [ArgumentList.prepend, ArgumentList.separate]

/-- Every argument is printed. -/
theorem length_printArguments (arguments : List ArgumentTree) :
    (printArguments arguments).length = arguments.length := by
  induction arguments with
  | nil => rfl
  | cons argument more ih => rw [printArguments, List.length_cons, ih, List.length_cons]

/-- An argument list has the arguments it is made of, a blank one that is not needed aside. -/
theorem take_arguments {first tail : Bytes} {more : List Bytes} {count : Nat}
    (hblank : ∀ text ∈ (first :: more).take count, ¬ text.all Byte.isWhiteSpace) :
    (ArgumentList.mk first more tail).arguments.take count = (first :: more).take count := by
  unfold ArgumentList.arguments
  split
  · next hsingle =>
    cases count with
    | zero => rfl
    | succ count =>
      exact absurd ((Bool.and_eq_true _ _).mp hsingle).2 (hblank first (by simp))
  · rfl

/-- A printed call is expanded, with the arguments of the tree. -/
theorem judge_printed {builtin : Builtin} {arguments : List ArgumentTree}
    (hcall : (CallTree.call builtin arguments).WellFormed) (line : Nat) (before tail : Bytes) :
    ∃ list, judge builtin line before
          ([Byte.comma].intercalate (printArguments arguments) ++ Byte.closeParen :: tail) =
        .ok list ∧
      list.inside = [Byte.comma].intercalate (printArguments arguments) ∧ list.behind = tail ∧
      list.arguments.take builtin.operandCount =
        (printArguments arguments).take builtin.operandCount := by
  obtain ⟨hcount, hblank, harguments⟩ := hcall
  have hsplit := splitArguments?_printed arguments harguments tail
  have hplain := plain_intercalate (plain_printArguments arguments harguments)
  generalize hlist : ArgumentList.mk ((printArguments arguments).headD [])
    (printArguments arguments).tail tail = list at hsplit
  have hinside : list.inside = [Byte.comma].intercalate (printArguments arguments) := by
    rw [← hlist]
    cases arguments with
    | nil => rfl
    | cons argument more => rw [printArguments, intercalate_comma]; rfl
  have htake : list.arguments.take builtin.operandCount =
      (printArguments arguments).take builtin.operandCount := by
    rw [← hlist]
    cases arguments with
    | nil => rfl
    | cons argument more => exact take_arguments hblank
  have henough : builtin.operandCount ≤ list.arguments.length := by
    have hlength := congrArg List.length htake
    rw [List.length_take, List.length_take, length_printArguments] at hlength
    omega
  refine ⟨list, ?_, hinside, by rw [← hlist], htake⟩
  have hdirective := findDirective?_of_plain before (Byte.closeParen :: tail) hplain
  unfold judge
  rw [hsplit]
  dsimp only
  rw [hinside, hdirective]
  dsimp only
  rw [if_neg (Nat.not_lt.mpr henough)]

/-- In front of a parenthesis, the name of a built-in is a word. -/
theorem nextLexeme_spelling {builtin : Builtin} {b : UInt8} {rest : Bytes} (before tail : Bytes)
    (hspelling : builtin.spelling = b :: rest) (hstarts : Byte.startsIdentifier b)
    (hrest : ∀ c ∈ rest, Byte.continuesIdentifier c) :
    nextLexeme before b (rest ++ Byte.openParen :: tail) =
      (.word builtin.spelling, Byte.openParen :: tail) := by
  have hb : isPlain b := by
    have hplain := plain_of_joinsWord (@joinsWord_of_mem_spelling builtin)
    rw [hspelling] at hplain
    exact (plain_cons.mp hplain).1
  obtain ⟨-, -, -, -, hhash, -⟩ := ne_of_isPlain hb
  have hparen : ¬ Byte.continuesIdentifier Byte.openParen := by decide
  have hdigit : ¬ Byte.isDigit b := not_isDigit_of_startsIdentifier hstarts
  unfold nextLexeme
  rw [splitTrivia?_of_isPlain hb]
  dsimp only
  rw [if_neg fun hstart => hhash hstart.1, if_neg hdigit, if_pos hstarts,
    List.takeWhile_append_of_pos hrest, List.dropWhile_append_of_pos hrest,
    List.takeWhile_cons_of_neg hparen, List.dropWhile_cons_of_neg hparen, List.append_nil,
    hspelling]

/-- The outline of a printed call is one call. -/
theorem outline_printed {builtin : Builtin} {arguments : List ArgumentTree}
    (hcall : (CallTree.call builtin arguments).WellFormed) (line : Nat) (before tail : Bytes) :
    ∃ list, outline line before ((CallTree.call builtin arguments).print ++ tail) =
        .call builtin [] list (outlineOperands line
            ((printArguments arguments).take builtin.operandCount)) ::
          outline line ((CallTree.call builtin arguments).print.reverse ++ before) tail ∧
      newlines (builtin.spelling ++ callTail [] list) = 0 := by
  obtain ⟨b, rest, hspelling, hstarts, hrest⟩ := spelling_shape builtin
  have hprint : (CallTree.call builtin arguments).print ++ tail = b :: (rest ++ Byte.openParen ::
      ([Byte.comma].intercalate (printArguments arguments) ++ Byte.closeParen :: tail)) := by
    simp [CallTree.print, hspelling]
  obtain ⟨list, hjudge, hinside, hbehind, htake⟩ := judge_printed hcall (line + newlines [])
    (Byte.openParen :: [].reverse ++ builtin.spelling.reverse ++ before) tail
  have hnext := nextLexeme_spelling before
    ([Byte.comma].intercalate (printArguments arguments) ++ Byte.closeParen :: tail) hspelling
    hstarts hrest
  have hopening : opening? (.word builtin.spelling) (Byte.openParen ::
      ([Byte.comma].intercalate (printArguments arguments) ++ Byte.closeParen :: tail)) =
        some (builtin, [], [Byte.comma].intercalate (printArguments arguments) ++
          Byte.closeParen :: tail) :=
    opening?_eq_some.mpr ⟨rfl, rfl, fun b hb => absurd hb List.not_mem_nil⟩
  have hwritten : builtin.spelling ++ callTail [] list =
      (CallTree.call builtin arguments).print := by
    simp [callTail, CallTree.print, hinside]
  have hlines : newlines (builtin.spelling ++ callTail [] list) = 0 := by
    rw [hwritten]
    exact newlines_of_plain (CallTree.plain_print _ hcall)
  refine ⟨list, ?_, hlines⟩
  have hname : newlines builtin.spelling = 0 :=
    newlines_eq_zero_of_all (by decide) joinsWord_of_mem_spelling
  have htail : newlines (callTail [] list) = 0 := by
    rw [newlines_append, hname, Nat.zero_add] at hlines
    exact hlines
  rw [hprint, outline_expanded hnext hopening hjudge, htake, hbehind, htail, ← hwritten,
    List.reverse_append]
  rfl

end PlainSync.Source
