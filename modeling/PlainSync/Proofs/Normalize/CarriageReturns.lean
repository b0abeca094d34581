import PlainSync.Proofs.Source.LineEndingLists
import PlainSync.Normalize

/-!
# Sources with carriage returns

A source reports the same calls on the same lines if its line ends are written with carriage
returns, unless a literal that is read is continued on the next line.
-/

namespace PlainSync.Source

open Bytes

/-! ## Calls -/

/-- The arguments of both lists are alike. -/
theorem ReturnedList.arguments {list list' : ArgumentList} (hlists : ReturnedList list list') :
    List.Forall₂ Returned list.arguments list'.arguments := by
  obtain ⟨first, more, behind⟩ := list
  obtain ⟨first', more', behind'⟩ := list'
  obtain ⟨hfirst, hmore, -⟩ := hlists
  have hempty : more'.isEmpty = more.isEmpty := by
    cases hmore <;> rfl
  unfold ArgumentList.arguments
  simp only [hempty, hfirst.all_eq (p := Byte.isWhiteSpace) (by decide)]
  split
  · exact .nil
  · exact .cons hfirst hmore

/-- Both calls are kept for one reason, or both can be expanded. -/
inductive JudgedAlike : Except KeepReason ArgumentList → Except KeepReason ArgumentList → Prop
  | error (reason : KeepReason) : JudgedAlike (.error reason) (.error reason)
  | ok {list list' : ArgumentList} (hlists : ReturnedList list list') :
    JudgedAlike (.ok list) (.ok list')

/-- A call is judged alike, up to the carriage returns of its arguments. -/
theorem judge_returned (builtin : Builtin) (line : Nat) (before before' : Bytes)
    {text text' : Bytes} (hreturned : Returned text text')
    (hunits : ∀ unit ∈ triviaRead 0 text, StaysOnLine unit) :
    JudgedAlike (judge builtin line (Byte.openParen :: before) text)
      (judge builtin line (Byte.openParen :: before') text') := by
  have hstart : SameStart (Byte.openParen :: before) (Byte.openParen :: before') text' :=
    .inr (by rw [atLineStart_paren (.inl rfl), atLineStart_paren (.inl rfl)])
  have halike := splitArguments?_returned hreturned hstart hunits
  unfold judge
  generalize splitArguments? 0 text = found at halike
  generalize splitArguments? 0 text' = found' at halike
  cases halike with
  | none => exact .error _
  | @some list list' hlists hlines =>
    unfold directiveLines? at hlines
    dsimp only
    cases hdirective : findDirective? (Byte.openParen :: before) text list.inside.length with
    | some offset =>
      rw [hdirective] at hlines
      obtain ⟨offset', hdirective', hsame⟩ := Option.map_eq_some_iff.mp hlines
      rw [hdirective']
      simp only [hsame]
      exact .error _
    | none =>
      rw [hdirective, Option.map_none, Option.map_eq_none_iff] at hlines
      rw [hlines, hlists.arguments.length_eq]
      dsimp only
      split
      · exact .error _
      · exact .ok hlists

/-- Both words open a call, or neither does. -/
inductive OpenedAlike : Option (Builtin × Bytes × Bytes) → Option (Builtin × Bytes × Bytes) → Prop
  | none : OpenedAlike none none
  | some (builtin : Builtin) {gap gap' inner inner' : Bytes} (hgap : Returned gap gap')
    (hinner : Returned inner inner') :
    OpenedAlike (some (builtin, gap, inner)) (some (builtin, gap', inner'))

/-- A lexeme opens a call in both texts or in neither. -/
theorem opening?_returned (lexeme : Lexeme) {behind behind' : Bytes}
    (hreturned : Returned behind behind') :
    OpenedAlike (opening? lexeme behind) (opening? lexeme behind') := by
  cases lexeme with
  | word name =>
    have hgap := hreturned.takeWhile (p := Byte.isWhiteSpace) (by decide)
    have hopened := hreturned.dropWhile (p := Byte.isWhiteSpace) (by decide)
    simp only [opening?]
    generalize behind.dropWhile Byte.isWhiteSpace = rest at hopened
    generalize behind'.dropWhile Byte.isWhiteSpace = rest' at hopened
    cases Builtin.ofSpelling? name with
    | none => exact .none
    | some builtin =>
      cases hopened with
      | nil => exact .none
      | byte hb hmore =>
        dsimp only
        split
        · exact .some builtin hgap hmore
        · exact .none
      | lineEnd hmore => exact .none
  | _ => exact .none

/-! ## Lexemes -/

/-- The first lexemes of both texts, and what stands behind them. -/
theorem nextLexeme_returned {before before' rest rest' behind : Bytes} {b : UInt8} {lexeme : Lexeme}
    (hb : b ≠ Byte.carriageReturn) (hmore : Returned rest rest')
    (hstart : SameStart before before' (b :: rest'))
    (hnext : nextLexeme before b rest = (lexeme, behind)) (hstays : StaysOnLine lexeme.text) :
    ∃ lexeme' behind', nextLexeme before' b rest' = (lexeme', behind') ∧
      ReturnedCut (lexeme.text, behind) (lexeme'.text, behind') ∧
      OpenedAlike (opening? lexeme behind) (opening? lexeme' behind') := by
  obtain ⟨hnone, hsome⟩ := splitTrivia?_returned (.byte hb hmore)
  unfold nextLexeme at hnext ⊢
  cases htrivia : splitTrivia? (b :: rest) with
  | some split =>
    obtain ⟨unit, rest⟩ := split
    rw [htrivia] at hnext
    cases hnext
    obtain ⟨unit', behind', htrivia', hcut⟩ := hsome _ _ htrivia hstays
    rw [htrivia']
    exact ⟨_, _, rfl, hcut, .none⟩
  | none =>
    have hhash : (b = Byte.hash ∧ atLineStart before') ↔ (b = Byte.hash ∧ atLineStart before) := by
      by_cases hb : b = Byte.hash
      · rw [hstart.of_ne (by rw [hb]; decide)]
      · simp [hb]
    rw [htrivia] at hnext
    rw [hnone htrivia]
    dsimp only at hnext ⊢
    simp only [hhash]
    by_cases hdirective : b = Byte.hash ∧ atLineStart before
    · rw [if_pos hdirective] at hnext ⊢
      cases hnext
      exact ⟨_, _, rfl, (splitDirective_returned hb hmore).cons hb, .none⟩
    · rw [if_neg hdirective] at hnext ⊢
      by_cases hdigit : Byte.isDigit b
      · rw [if_pos hdigit] at hnext ⊢
        cases hnext
        exact ⟨_, _, rfl, (splitNumberBody_returned b hmore).cons hb, .none⟩
      · rw [if_neg hdigit] at hnext ⊢
        by_cases hstarts : Byte.startsIdentifier b
        · rw [if_pos hstarts] at hnext ⊢
          cases hnext
          have hname := hmore.takeWhile (p := Byte.continuesIdentifier) (by decide)
          have hbehind := hmore.dropWhile (p := Byte.continuesIdentifier) (by decide)
          have hline : Byte.newline ∉ rest.takeWhile Byte.continuesIdentifier := fun hmem =>
            absurd (List.all_eq_true.mp List.all_takeWhile _ hmem) (by decide)
          have hsame := hname.eq_of_not_mem hline
          rw [hsame] at hname ⊢
          exact ⟨_, _, rfl, .apart (.byte hb hname) hbehind, opening?_returned _ hbehind⟩
        · rw [if_neg hstarts] at hnext ⊢
          cases hnext
          exact ⟨_, _, rfl, .apart (.byte hb .nil) hmore, .none⟩

/-! ## Outlines -/

mutual

/-- The comments and literals that are read in the outline of a text, and in the argument lists of
its calls, `behind` being the text behind the piece. -/
def Piece.unitsRead (behind : Bytes) : Piece → List Bytes
  | .verbatim text => [text]
  | .kept _ _ _ => triviaRead 0 (behind.dropWhile Byte.isWhiteSpace).tail
  | .call _ _ list operands =>
    triviaRead 0 (list.inside ++ Byte.closeParen :: behind) ++ operandUnitsRead operands

/-- Those of an outline. Words, numbers and other bytes count as comments. -/
def unitsRead : List Piece → List Bytes
  | [] => []
  | piece :: more => piece.unitsRead (more.flatMap Piece.source) ++ unitsRead more

/-- Those of the operands of a call. -/
def operandUnitsRead : List (List Piece) → List Bytes
  | [] => []
  | operand :: more => unitsRead operand ++ operandUnitsRead more

end

/-- Both outlines have the same calls. -/
structure SameCalls (pieces pieces' : List Piece) : Prop where
  expanded : expandedPieces pieces' = expandedPieces pieces
  kept : keptInPieces pieces' = keptInPieces pieces

/-- The calls among operands are the same. -/
theorem sameCalls_operands {arguments arguments' : List Bytes}
    (hreturned : List.Forall₂ Returned arguments arguments')
    (hall : ∀ argument ∈ arguments, ∀ line argument', Returned argument argument' →
      (∀ unit ∈ unitsRead (outline line [] argument), StaysOnLine unit) →
        SameCalls (outline line [] argument) (outline line [] argument')) (line : Nat)
    (hunits : ∀ unit ∈ operandUnitsRead (outlineOperands line arguments), StaysOnLine unit) :
    expandedOperands (outlineOperands line arguments') =
        expandedOperands (outlineOperands line arguments) ∧
      keptInOperands (outlineOperands line arguments') =
        keptInOperands (outlineOperands line arguments) := by
  induction hreturned generalizing line with
  | nil => exact ⟨rfl, rfl⟩
  | @cons argument argument' more more' hargument _ ih =>
    rw [outlineOperands, operandUnitsRead] at hunits
    obtain ⟨hexpanded, hkept⟩ := hall argument List.mem_cons_self line argument' hargument
      fun unit hunit => hunits unit (List.mem_append_left _ hunit)
    obtain ⟨hexpanded', hkept'⟩ := ih
      (fun other hother => hall other (List.mem_cons_of_mem _ hother))
      (line + newlines argument) fun unit hunit => hunits unit (List.mem_append_right _ hunit)
    rw [outlineOperands, outlineOperands, hargument.newlines_eq]
    simp only [expandedOperands, keptInOperands, hexpanded, hkept, hexpanded', hkept', and_self]

/-- A line break is copied. -/
theorem outline_break {b : UInt8} (hb : b = Byte.newline ∨ b = Byte.carriageReturn) (line : Nat)
    (before rest : Bytes) :
    outline line before (b :: rest) =
      .verbatim [b] :: outline (line + newlines [b]) (b :: before) rest := by
  have hnext : nextLexeme before b rest = (.mark b, rest) := by
    rcases hb with rfl | rfl <;> rfl
  exact outline_copied hnext rfl

/-- Text that is copied has no call. -/
theorem SameCalls.verbatim {pieces pieces' : List Piece} (hsame : SameCalls pieces pieces')
    (text text' : Bytes) : SameCalls (.verbatim text :: pieces) (.verbatim text' :: pieces') :=
  ⟨hsame.expanded, hsame.kept⟩

/-- Text that is inserted has no call. -/
theorem SameCalls.insert {pieces pieces' : List Piece} (hsame : SameCalls pieces pieces')
    (text : Bytes) : SameCalls pieces (.verbatim text :: pieces') :=
  ⟨hsame.expanded, hsame.kept⟩

/-- Lists that are alike are so from parenthesis to parenthesis. -/
theorem ReturnedList.inside {list list' : ArgumentList} (hlists : ReturnedList list list') :
    Returned list.inside list'.inside := by
  refine hlists.first.append ?_
  obtain ⟨-, hmore, -⟩ := hlists
  generalize list.more = stretches at hmore
  generalize list'.more = stretches' at hmore
  induction hmore with
  | nil => exact .nil
  | cons hstretch _ ih => exact (Returned.byte (by decide) hstretch).append ih

/-- Calls with lists that are alike are so behind their names. -/
theorem ReturnedList.callTail {list list' : ArgumentList} {gap gap' : Bytes}
    (hlists : ReturnedList list list') (hgap : Returned gap gap') :
    Returned (callTail gap list) (callTail gap' list') := by
  unfold Source.callTail
  rw [List.append_assoc, List.append_assoc]
  exact hgap.append (.byte (by decide) (hlists.inside.append (.byte (by decide) .nil)))

/-- A call is opened in both texts. -/
theorem exists_opening_returned {before before' rest text' behind gap inner : Bytes} {b : UInt8}
    {lexeme : Lexeme} {builtin : Builtin} (hreturned : Returned (b :: rest) text')
    (hstart : SameStart before before' text')
    (hnext : nextLexeme before b rest = (lexeme, behind))
    (hopening : opening? lexeme behind = some (builtin, gap, inner)) :
    ∃ rest' lexeme' behind' gap' inner', text' = b :: rest' ∧
      nextLexeme before' b rest' = (lexeme', behind') ∧
      SameStart (lexeme.text.reverse ++ before) (lexeme'.text.reverse ++ before') behind' ∧
      Returned behind behind' ∧ opening? lexeme' behind' = some (builtin, gap', inner') ∧
      Returned gap gap' ∧ Returned inner inner' := by
  obtain ⟨rfl, -, -⟩ := opening?_eq_some.mp hopening
  have hline : Byte.newline ∉ builtin.spelling := fun hmem =>
    absurd (joinsWord_of_mem_spelling _ hmem) (by decide)
  have hb : b ≠ Byte.newline := by
    rintro rfl
    obtain ⟨name, hname, -⟩ := exists_text_eq_cons hnext
    rw [Lexeme.text] at hname
    exact hline (by rw [hname]; exact List.mem_cons_self)
  obtain ⟨hb', rest', rfl, hrest⟩ := hreturned.exists_cons hb
  obtain ⟨lexeme', behind', hnext', hcut, hopened⟩ :=
    nextLexeme_returned hb' hrest hstart hnext fun _ => hline
  rw [hopening] at hopened
  generalize hopening' : opening? lexeme' behind' = opened at hopened
  cases hopened with
  | some _ hgap hinner =>
    exact ⟨rest', lexeme', behind', _, _, rfl, hnext', .cut hcut (hstart.of_ne hb), hcut.behind,
      hopening', hgap, hinner⟩

/-- The calls of a text are kept and replaced alike where line ends have carriage returns. -/
def ReportedAlike (line : Nat) (before text : Bytes) : Prop :=
  ∀ before' text', Returned text text' → SameStart before before' text' →
    (∀ unit ∈ unitsRead (outline line before text), StaysOnLine unit) →
      SameCalls (outline line before text) (outline line before' text')

section Outline

variable {line : Nat} {before rest behind gap inner : Bytes} {b : UInt8} {lexeme : Lexeme}
  {builtin : Builtin}

/-- A lexeme that is copied is so in both texts, a line end with its return. -/
theorem ReportedAlike.copied (hnext : nextLexeme before b rest = (lexeme, behind))
    (hopening : opening? lexeme behind = none)
    (hbehind : ReportedAlike (line + newlines lexeme.text) (lexeme.text.reverse ++ before) behind) :
    ReportedAlike line before (b :: rest) := by
  intro before' text' hreturned hstart hunits
  rw [outline_copied hnext hopening, unitsRead, Piece.unitsRead] at hunits
  rw [outline_copied hnext hopening]
  have hstays := hunits lexeme.text (by simp)
  have hmore := fun unit hunit => hunits unit (List.mem_append_right _ hunit)
  by_cases hb : b = Byte.newline
  · subst hb
    have hmark : nextLexeme before Byte.newline rest = (.mark Byte.newline, rest) := rfl
    rw [hmark] at hnext
    cases hnext
    cases hreturned with
    | byte _ hreturned =>
      rw [outline_break (.inl rfl)]
      exact (hbehind _ _ hreturned (hstart.cons _) hmore).verbatim _ _
    | lineEnd hreturned =>
      rw [outline_break (.inr rfl), outline_break (.inl rfl)]
      have hreturn : newlines [Byte.carriageReturn] = 0 := rfl
      rw [hreturn, Nat.add_zero]
      refine (SameCalls.verbatim (hbehind _ _ hreturned (.inr ?_) hmore) _ _).insert _
      simp [atLineStart_cons, Lexeme.text]
  · obtain ⟨hb', rest', rfl, hrest⟩ := hreturned.exists_cons hb
    obtain ⟨lexeme', behind', hnext', hcut, hopened⟩ :=
      nextLexeme_returned hb' hrest hstart hnext hstays
    rw [hopening] at hopened
    have hopening' : opening? lexeme' behind' = none := by
      generalize opening? lexeme' behind' = opened at hopened
      cases hopened
      rfl
    have hlines : newlines lexeme'.text = newlines lexeme.text := hcut.newlines_eq
    rw [outline_copied hnext' hopening', hlines]
    exact (hbehind _ _ hcut.behind (.cut hcut (hstart.of_ne hb)) hmore).verbatim _ _

/-- A call is kept in both texts for one reason. -/
theorem ReportedAlike.kept {reason : KeepReason}
    (hnext : nextLexeme before b rest = (lexeme, behind))
    (hopening : opening? lexeme behind = some (builtin, gap, inner))
    (hjudge : judge builtin (line + newlines gap)
      (Byte.openParen :: gap.reverse ++ lexeme.text.reverse ++ before) inner = .error reason)
    (hbehind : ReportedAlike line (lexeme.text.reverse ++ before) behind) :
    ReportedAlike line before (b :: rest) := by
  intro before' text' hreturned hstart hunits
  obtain ⟨rest', lexeme', behind', gap', inner', rfl, hnext', hstart', hreturned', hopening', hgap,
    hinner⟩ := exists_opening_returned hreturned hstart hnext hopening
  have hlist : (behind.dropWhile Byte.isWhiteSpace).tail = inner := by
    obtain ⟨-, hopened, hwhite⟩ := opening?_eq_some.mp hopening
    rw [hopened, List.dropWhile_append_of_pos hwhite]
    rfl
  rw [outline_kept hnext hopening hjudge, unitsRead, Piece.unitsRead, source_outline, hlist]
    at hunits
  have halike := judge_returned builtin (line + newlines gap)
    (gap.reverse ++ lexeme.text.reverse ++ before)
    (gap'.reverse ++ lexeme'.text.reverse ++ before') hinner
    fun unit hunit => hunits unit (List.mem_append_left _ hunit)
  have hmore := hbehind _ _ hreturned' hstart' fun unit hunit =>
    hunits unit (List.mem_append_right _ hunit)
  rw [← List.cons_append, ← List.cons_append, hjudge, ← hgap.newlines_eq] at halike
  generalize hjudge' : judge builtin _ _ inner' = judged at halike
  cases halike with
  | error =>
    rw [outline_kept hnext hopening hjudge, outline_kept hnext' hopening' hjudge']
    exact ⟨hmore.expanded, by simp only [keptInPieces, Piece.keptCalls, hmore.kept]⟩

/-- A call is replaced in both texts, with the calls among its operands. -/
theorem ReportedAlike.expanded {list : ArgumentList}
    (hnext : nextLexeme before b rest = (lexeme, behind))
    (hopening : opening? lexeme behind = some (builtin, gap, inner))
    (hjudge : judge builtin (line + newlines gap)
      (Byte.openParen :: gap.reverse ++ lexeme.text.reverse ++ before) inner = .ok list)
    (harguments : ∀ argument ∈ list.arguments.take builtin.operandCount, ∀ line,
      ReportedAlike line [] argument)
    (hbehind : ReportedAlike (line + newlines (callTail gap list))
      ((callTail gap list).reverse ++ lexeme.text.reverse ++ before) list.behind) :
    ReportedAlike line before (b :: rest) := by
  intro before' text' hreturned hstart hunits
  obtain ⟨rest', lexeme', behind', gap', inner', rfl, hnext', -, -, hopening', hgap, hinner⟩ :=
    exists_opening_returned hreturned hstart hnext hopening
  rw [outline_expanded hnext hopening hjudge, unitsRead, Piece.unitsRead, source_outline,
    append_of_judge hjudge] at hunits
  have halike := judge_returned builtin (line + newlines gap)
    (gap.reverse ++ lexeme.text.reverse ++ before)
    (gap'.reverse ++ lexeme'.text.reverse ++ before') hinner
    fun unit hunit => hunits unit (List.mem_append_left _ (List.mem_append_left _ hunit))
  rw [← List.cons_append, ← List.cons_append, hjudge, ← hgap.newlines_eq] at halike
  generalize hjudge' : judge builtin _ _ inner' = judged at halike
  cases halike with
  | @ok _ list' hlists =>
    have hoperands := sameCalls_operands
      (List.forall₂_take builtin.operandCount hlists.arguments)
      (fun argument hmem line argument' hreturned hunits =>
        harguments argument hmem line [] argument' hreturned (.inr rfl) hunits)
      (line + newlines gap)
      fun unit hunit => hunits unit (List.mem_append_left _ (List.mem_append_right _ hunit))
    have htail := hlists.callTail hgap
    have hmore := hbehind ((callTail gap' list').reverse ++ lexeme'.text.reverse ++ before')
      list'.behind hlists.behind (.inr ?_)
      fun unit hunit => hunits unit (List.mem_append_right _ hunit)
    · rw [outline_expanded hnext hopening hjudge, outline_expanded hnext' hopening' hjudge',
        hgap.newlines_eq, htail.newlines_eq]
      constructor
      · simp only [expandedPieces, Piece.expanded, hoperands.1, hmore.expanded]
      · simp only [keptInPieces, Piece.keptCalls, hoperands.2, hmore.kept]
    · rw [List.append_assoc, List.append_assoc, atLineStart_callTail, atLineStart_callTail]

end Outline

/-- Returns in front of line ends change no call. -/
theorem reportedAlike (line : Nat) (before text : Bytes) : ReportedAlike line before text := by
  induction line, before, text using outline_induction with
  | nil line before =>
    intro before' text' hreturned _ _
    cases hreturned
    rw [outline, outline]
    exact ⟨rfl, rfl⟩
  | copied hnext hopening hbehind => exact .copied hnext hopening hbehind
  | kept hnext hopening hjudge hbehind => exact .kept hnext hopening hjudge hbehind
  | expanded hnext hopening hjudge harguments hbehind =>
    exact .expanded hnext hopening hjudge harguments hbehind

/-! ## Reports -/

/-- The text with a carriage return in front of every line end. -/
def withReturns (text : Bytes) : Bytes :=
  text.flatMap fun b => if b = Byte.newline then [Byte.carriageReturn, Byte.newline] else [b]

/-- Every line end gets its return. -/
theorem returned_withReturns {text : Bytes} (htext : Byte.carriageReturn ∉ text) :
    Returned text (withReturns text) := by
  induction text with
  | nil => exact .nil
  | cons b rest ih =>
    rw [List.mem_cons, not_or] at htext
    have hmore := ih htext.2
    by_cases hb : b = Byte.newline
    · subst hb
      exact .lineEnd hmore
    · have hcons : withReturns (b :: rest) = b :: withReturns rest := by
        simp only [withReturns, List.flatMap_cons, if_neg hb, List.singleton_append]
      rw [hcons]
      exact .byte (Ne.symm htext.1) hmore

/-- A source without carriage returns has the report that it has with one in front of every line
end, if no literal that is read is continued on the next line. -/
theorem report_withReturns (session : Session) {source : Bytes}
    (hsource : Byte.carriageReturn ∉ source)
    (hunits : ∀ unit ∈ unitsRead (outline 1 [] source), StaysOnLine unit) :
    (session.normalize (withReturns source)).1.report = (session.normalize source).1.report := by
  obtain ⟨hexpanded, hkept⟩ := reportedAlike 1 [] source [] (withReturns source)
    (returned_withReturns hsource) (.inr rfl) hunits
  unfold Session.normalize
  split
  · simp only [hexpanded, hkept]
  · rfl

/-- A macro on two lines, and a call on two lines that is kept. -/
def continuedMacro : Bytes :=
  ofString "#define A \\\n 1\n__sync_synchronize(); // a\n__sync_lock_release(\n);"

/-- The call on two lines is kept on its line either way. -/
theorem report_continuedMacro :
    (normalize {} (withReturns continuedMacro)).report = (normalize {} continuedMacro).report ∧
      (normalize {} continuedMacro).report =
        { expanded := [.synchronize], kept := [⟨4, .lockRelease, .arity 1 0⟩] } :=
  ⟨report_withReturns { config := {} } (by decide +kernel) (by decide +kernel), by decide +kernel⟩

/-- A message on two lines in front of a call. -/
def continuedMessage : Bytes :=
  ofString "log(\"wait \\\n(slow)\", __sync_fetch_and_add(&n, 1));"

/-- The carriage return ends the message at the end of its first line, and the quote behind it
opens a literal that the call stands in. -/
theorem report_continuedMessage :
    Byte.carriageReturn ∉ continuedMessage ∧
      (normalize {} continuedMessage).report = { expanded := [.fetchAndOp .add] } ∧
      (normalize {} (withReturns continuedMessage)).report = {} := by
  decide +kernel

end PlainSync.Source
