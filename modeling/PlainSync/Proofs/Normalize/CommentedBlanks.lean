import PlainSync.Proofs.Normalize.CarriageReturns
import PlainSync.Proofs.Source.CommentedLists

/-!
# Comments in the place of blanks

A source has the same report with a comment on one line in the place of a blank, if the blank is
read on its own and no hash mark is the next byte that is not blank. It is not read on its own
between the name of a call and its parenthesis, nor in an empty list for which a call is kept.
-/

namespace PlainSync.Source

open Bytes

/-! ## Units of an outline -/

/-- What opens a call, as one unit, and the units of its argument list. -/
def callUnits (start : Nat) (opening inner : Bytes) : List ReadUnit :=
  ⟨start, opening⟩ :: placeUnits (start + opening.length) (listUnits 0 inner)

/-- A list of white space is read as one unit, with its parenthesis, if a call is kept because it
has no argument. -/
def emptyListUnits (start : Nat) (inner : Bytes) : KeepReason → List ReadUnit
  | .arity _ 0 => [⟨start, inner.takeWhile Byte.isWhiteSpace ++ [Byte.closeParen]⟩]
  | _ => []

/-- The text of a call up to its opening parenthesis. -/
def openingText (builtin : Builtin) (gap : Bytes) : Bytes :=
  builtin.spelling ++ gap ++ [Byte.openParen]

mutual

/-- The units that are read in the outline of a text that stands at an index, and in the argument
lists of its calls, `behind` being the text behind the piece. -/
def Piece.readUnits (start : Nat) (behind : Bytes) : Piece → List ReadUnit
  | .verbatim text => [⟨start, text⟩]
  | .kept builtin _ reason =>
    let opening := openingText builtin (behind.takeWhile Byte.isWhiteSpace)
    let inner := (behind.dropWhile Byte.isWhiteSpace).tail
    callUnits start opening inner ++ emptyListUnits (start + opening.length) inner reason
  | .call builtin gap list operands =>
    let opening := openingText builtin gap
    callUnits start opening (list.inside ++ Byte.closeParen :: behind) ++
      operandReadUnits (start + opening.length) operands

/-- Those of an outline. -/
def readUnits (start : Nat) : List Piece → List ReadUnit
  | [] => []
  | piece :: more =>
    piece.readUnits start (more.flatMap Piece.source) ++
      readUnits (start + piece.source.length) more

/-- Those of the operands of a call, which stand with a comma behind each. -/
def operandReadUnits (start : Nat) : List (List Piece) → List ReadUnit
  | [] => []
  | operand :: more =>
    readUnits start operand ++
      operandReadUnits (start + ((operand.flatMap Piece.source).length + 1)) more

end

/-- The blank between two texts is read on its own wherever it is read, no slash stands directly in
front of it, and the next byte that is not blank is no hash mark. -/
structure StandsApart (front : Bytes) (b : UInt8) (behind : Bytes) : Prop where
  alone : ∀ unit ∈ readUnits 0 (outline 1 [] (front ++ b :: behind)),
    unit.LeavesAlone front.length
  hash : (behind.dropWhile Byte.isBlank).head? ≠ some Byte.hash

/-! ## Lexemes -/

section Opening

variable {b c : UInt8} {before rest front behind behindWord gap inner : Bytes} {lexeme : Lexeme}
  {builtin : Builtin}

/-- A lexeme that opens no call in front of a blank opens none in front of a slash. -/
theorem opening?_slash (hopening : opening? lexeme (front ++ b :: behind) = none) (tail : Bytes) :
    opening? lexeme (front ++ Byte.slash :: tail) = none := by
  rw [Option.eq_none_iff_forall_ne_some] at hopening ⊢
  rintro ⟨builtin, gap, inner⟩ hopened
  obtain ⟨hword, hwhole, hgap⟩ := opening?_eq_some.mp hopened
  have hsplit : gap ++ [Byte.openParen] ++ inner = front ++ Byte.slash :: tail := by
    rw [hwhole, List.append_assoc, List.singleton_append]
  rcases append_eq_append_cons hsplit with ⟨front', rfl, rfl⟩ | ⟨back, hback⟩
  · refine hopening (builtin, gap, front' ++ b :: behind) (opening?_eq_some.mpr ⟨hword, ?_, hgap⟩)
    simp
  · have hslash : Byte.slash ∈ gap ++ [Byte.openParen] := by
      rw [hback]
      simp
    rcases List.mem_append.mp hslash with hmem | hmem
    · exact absurd (hgap _ hmem) (by decide)
    · exact absurd (List.mem_singleton.mp hmem) (by decide)

/-- A call is opened with a slash in the place of a blank behind its parenthesis. -/
theorem exists_opening_slash (hb : Byte.isBlank b)
    (hnext : nextLexeme before c rest = (lexeme, behindWord))
    (hopening : opening? lexeme behindWord = some (builtin, gap, inner))
    (htext : c :: rest = front ++ b :: behind) {start : Nat}
    (halone : ReadUnit.LeavesAlone (start + front.length) ⟨start, openingText builtin gap⟩)
    (tail : Bytes) :
    ∃ front' rest', front = openingText builtin gap ++ front' ∧ inner = front' ++ b :: behind ∧
      front ++ Byte.slash :: tail = c :: rest' ∧
      nextLexeme before c rest' =
        (lexeme, gap ++ Byte.openParen :: (front' ++ Byte.slash :: tail)) ∧
      opening? lexeme (gap ++ Byte.openParen :: (front' ++ Byte.slash :: tail)) =
        some (builtin, gap, front' ++ Byte.slash :: tail) := by
  obtain ⟨rfl, rfl, hgap⟩ := opening?_eq_some.mp hopening
  obtain ⟨text, hname, rfl⟩ := exists_text_eq_cons hnext
  rw [Lexeme.text] at hname
  have hopened (behind : Bytes) : openingText builtin gap ++ behind =
      c :: (text ++ (gap ++ Byte.openParen :: behind)) := by
    simp [openingText, hname]
  rcases append_eq_append_cons ((hopened inner).trans htext) with ⟨front', rfl, rfl⟩ | ⟨back, hback⟩
  · refine ⟨front', text ++ (gap ++ Byte.openParen :: (front' ++ Byte.slash :: tail)), rfl, rfl,
      ?_, ?_, ?_⟩
    · rw [List.append_assoc, hopened]
    · have hsplit (behind : Bytes) : gap ++ Byte.openParen :: (front' ++ behind) =
          (gap ++ Byte.openParen :: front') ++ behind := by simp
      rw [hsplit] at hnext ⊢
      exact nextLexeme_slash hb hnext (fun hnil => by simp at hnil) tail
    · exact opening?_eq_some.mpr ⟨rfl, rfl, hgap⟩
  · rw [hback] at halone
    obtain ⟨rfl, rfl⟩ := halone.eq_nil
    have hlength := congrArg List.length hback
    simp [openingText, hname] at hlength

/-- The white space and the text behind the parenthesis of a call. -/
theorem takeWhile_of_opening (hopening : opening? lexeme behindWord = some (builtin, gap, inner)) :
    behindWord.takeWhile Byte.isWhiteSpace = gap ∧
      (behindWord.dropWhile Byte.isWhiteSpace).tail = inner := by
  obtain ⟨-, rfl, hgap⟩ := opening?_eq_some.mp hopening
  have hparen : ¬ Byte.isWhiteSpace Byte.openParen := by decide
  rw [List.takeWhile_append_of_pos hgap, List.dropWhile_append_of_pos hgap]
  simp [hparen]

/-- An empty list that is one unit does not hold a blank that is left alone. -/
theorem not_all_of_emptyListUnits (hb : Byte.isBlank b) {start expected : Nat}
    (hunits : ∀ unit ∈ emptyListUnits start (front ++ b :: behind) (.arity expected 0),
      unit.LeavesAlone (start + front.length)) : ¬ front.all Byte.isWhiteSpace := by
  intro hall
  have hwhite : Byte.isWhiteSpace b := by
    simp only [Byte.isBlank, Bool.or_eq_true, decide_eq_true_eq] at hb
    rcases hb with rfl | rfl <;> decide
  have halone := hunits _ List.mem_cons_self
  rw [List.takeWhile_append_of_pos (List.all_eq_true.mp hall), List.takeWhile_cons_of_pos hwhite,
    List.append_assoc, List.cons_append] at halone
  exact absurd halone.eq_nil.2 (by simp)

end Opening

/-! ## Outlines -/

/-- The calls of a text stay the same with a comment in the place of each of its blanks that is read
on its own. -/
def CommentKeepsCalls (b : UInt8) (body : Bytes) (line : Nat) (before text : Bytes) : Prop :=
  ∀ start front behind, text = front ++ b :: behind →
    (behind.dropWhile Byte.isBlank).head? ≠ some Byte.hash →
    (∀ unit ∈ readUnits start (outline line before text),
      unit.LeavesAlone (start + front.length)) →
    SameCalls (outline line before text)
      (outline line before (front ++ (blockComment body ++ behind)))

/-- A call with operands that have the same calls. -/
theorem SameCalls.call {builtin : Builtin} {gap gap' : Bytes} {list list' : ArgumentList}
    {operands operands' : List (List Piece)} {pieces pieces' : List Piece}
    (hsame : SameCalls pieces pieces')
    (hexpanded : expandedOperands operands' = expandedOperands operands)
    (hkept : keptInOperands operands' = keptInOperands operands) :
    SameCalls (.call builtin gap list operands :: pieces)
      (.call builtin gap' list' operands' :: pieces') where
  expanded := by simp only [expandedPieces, Piece.expanded, hexpanded, hsame.expanded]
  kept := by simp only [keptInPieces, Piece.keptCalls, hkept, hsame.kept]

section Outlines

variable {b : UInt8} {body : Bytes} (hb : Byte.isBlank b) (hbody : KeepsOpen body)
  (hline : Byte.newline ∉ body)

include hb hline in
/-- The calls among operands are the same with a comment in one of them. -/
theorem sameCalls_oneCommented {index : Nat} {arguments arguments' : List Bytes}
    (hone : OneCommented b body index arguments arguments')
    (hall : ∀ argument ∈ arguments, ∀ line, CommentKeepsCalls b body line [] argument)
    (line start : Nat)
    (hunits : ∀ unit ∈ operandReadUnits start (outlineOperands line arguments),
      unit.LeavesAlone (start + index)) :
    expandedOperands (outlineOperands line arguments') =
        expandedOperands (outlineOperands line arguments) ∧
      keptInOperands (outlineOperands line arguments') =
        keptInOperands (outlineOperands line arguments) := by
  induction hone generalizing line start with
  | same => exact ⟨rfl, rfl⟩
  | @here front behind more hhash =>
    rw [outlineOperands, operandReadUnits] at hunits
    have hsame := hall _ List.mem_cons_self line start front behind rfl hhash
      fun unit hunit => hunits unit (List.mem_append_left _ hunit)
    have hlines : newlines (front ++ (blockComment body ++ behind)) =
        newlines (front ++ b :: behind) := by
      rw [newlines_append, newlines_append, newlines_blockComment hline, newlines_append,
        newlines_blank hb, Nat.zero_add]
    rw [outlineOperands, outlineOperands, hlines]
    simp only [expandedOperands, keptInOperands, hsame.expanded, hsame.kept, and_self]
  | @later index argument more more' _ ih =>
    rw [outlineOperands, operandReadUnits, source_outline] at hunits
    obtain ⟨hexpanded, hkept⟩ := ih (fun other hother => hall other (List.mem_cons_of_mem _ hother))
      (line + newlines argument) (start + (argument.length + 1)) fun unit hunit => by
        rw [Nat.add_assoc start]
        exact hunits unit (List.mem_append_right _ hunit)
    rw [outlineOperands, outlineOperands]
    simp only [expandedOperands, keptInOperands, hexpanded, hkept, and_self]

variable {line : Nat} {before rest behindWord gap inner : Bytes} {c : UInt8} {lexeme : Lexeme}
  {builtin : Builtin} {reason : KeepReason} {list : ArgumentList}

include hb hbody hline in
/-- A comment is one lexeme, and the outline goes on behind it as behind a blank. -/
theorem sameCalls_here {behind : Bytes}
    (hhash : (behind.dropWhile Byte.isBlank).head? ≠ some Byte.hash) (line : Nat)
    (before : Bytes) :
    SameCalls (outline line before (b :: behind))
      (outline line before (blockComment body ++ behind)) := by
  have hblank := nextLexeme_of_standsAlone (standsAlone_of_isBlank hb) before behind
  have hcomment : nextLexeme before Byte.slash
      (Byte.star :: (body ++ [Byte.star, Byte.slash]) ++ behind) =
        (.trivia (blockComment body), behind) := by
    have htrivia := splitTrivia?_blockComment hbody behind
    rw [blockComment, List.cons_append] at htrivia
    rw [nextLexeme, htrivia]
    rfl
  have halike : StartsAlike ([b].reverse ++ before) ((blockComment body).reverse ++ before)
      behind := .inr hhash
  rw [outline_copied hblank rfl, blockComment, List.cons_append, outline_copied hcomment rfl]
  simp only [Lexeme.text]
  rw [newlines_blockComment hline, newlines_blank hb [], outline_of_startsAlike _ _ _ _ halike]
  exact ⟨rfl, rfl⟩

include hb hbody hline in
/-- A comment in a lexeme that is copied or behind it. -/
theorem CommentKeepsCalls.copied (hnext : nextLexeme before c rest = (lexeme, behindWord))
    (hopening : opening? lexeme behindWord = none)
    (ih : CommentKeepsCalls b body (line + newlines lexeme.text) (lexeme.text.reverse ++ before)
      behindWord) : CommentKeepsCalls b body line before (c :: rest) := by
  intro start front behind htext hhash hunits
  rw [outline_copied hnext hopening, readUnits, Piece.readUnits, Piece.source,
    List.singleton_append, List.forall_mem_cons] at hunits
  obtain ⟨halone, hmore⟩ := hunits
  have hwhole := (append_of_nextLexeme hnext).trans htext
  rcases append_eq_append_cons hwhole with ⟨front', rfl, rfl⟩ | ⟨back, hback⟩
  · obtain ⟨tail, htail⟩ : ∃ tail, blockComment body ++ behind = Byte.slash :: tail := ⟨_, rfl⟩
    obtain ⟨text, hname, rfl⟩ := exists_text_eq_cons hnext
    have hslash : front' = [] → lexeme.text ≠ [Byte.slash] := by
      rintro rfl
      exact halone.2 (by simp)
    rw [List.length_append, ← Nat.add_assoc] at hmore
    have hsame := ih _ front' behind rfl hhash hmore
    have hfront : lexeme.text ++ front' ++ Byte.slash :: tail =
        c :: (text ++ (front' ++ Byte.slash :: tail)) := by
      rw [hname]
      simp
    rw [htail] at hsame ⊢
    rw [hfront, outline_copied hnext hopening,
      outline_copied (nextLexeme_slash hb hnext hslash tail) (opening?_slash hopening tail)]
    exact hsame.verbatim _ _
  · rw [hback] at halone
    obtain ⟨rfl, -⟩ := halone.eq_nil
    rw [htext]
    exact sameCalls_here hb hbody hline hhash line before

include hb hbody hline in
/-- A comment behind the name of a call that is kept. -/
theorem CommentKeepsCalls.kept (hnext : nextLexeme before c rest = (lexeme, behindWord))
    (hopening : opening? lexeme behindWord = some (builtin, gap, inner))
    (hjudge : judge builtin (line + newlines gap)
      (Byte.openParen :: gap.reverse ++ lexeme.text.reverse ++ before) inner = .error reason)
    (ih : CommentKeepsCalls b body line (lexeme.text.reverse ++ before) behindWord) :
    CommentKeepsCalls b body line before (c :: rest) := by
  intro start front behind htext hhash hunits
  obtain ⟨hgap, hinner⟩ := takeWhile_of_opening hopening
  rw [outline_kept hnext hopening hjudge, readUnits, Piece.readUnits, source_outline, hgap,
    hinner, Piece.source, callUnits, List.forall_mem_append, List.forall_mem_append,
    List.forall_mem_cons] at hunits
  obtain ⟨⟨⟨halone, hlist⟩, hlistEmpty⟩, hmore⟩ := hunits
  obtain ⟨tail, htail⟩ : ∃ tail, blockComment body ++ behind = Byte.slash :: tail := ⟨_, rfl⟩
  obtain ⟨front', rest', rfl, rfl, hwhole, hnext', hopening'⟩ :=
    exists_opening_slash hb hnext hopening htext halone tail
  rw [List.length_append, ← Nat.add_assoc] at hlist hlistEmpty
  have hempty : ∀ expected, judge builtin (line + newlines gap)
      (Byte.openParen :: gap.reverse ++ lexeme.text.reverse ++ before) (front' ++ b :: behind) =
        .error (.arity expected 0) → ¬ front'.all Byte.isWhiteSpace := by
    intro expected harity
    obtain rfl : reason = .arity expected 0 := Except.error.inj (hjudge.symm.trans harity)
    exact not_all_of_emptyListUnits hb hlistEmpty
  have hcall := judge_comment hb hbody hline hhash hlist hempty
  rw [hjudge, htail] at hcall
  generalize hjudge' : judge builtin _ _ (front' ++ Byte.slash :: tail) = judged at hcall
  cases hcall with
  | error =>
    obtain ⟨rfl, rfl, -⟩ := opening?_eq_some.mp hopening
    have hindex : start + (openingText builtin gap ++ front').length =
        start + builtin.spelling.length + (gap ++ Byte.openParen :: front').length := by
      simp [openingText]
      omega
    rw [hindex] at hmore
    have hsame := ih _ (gap ++ Byte.openParen :: front') behind (by simp) hhash hmore
    rw [htail, List.append_assoc, List.cons_append] at hsame
    rw [htail, hwhole, outline_kept hnext hopening hjudge, outline_kept hnext' hopening' hjudge']
    exact ⟨hsame.expanded, by simp only [keptInPieces, Piece.keptCalls, hsame.kept]⟩

include hb hbody hline in
/-- A comment in a call that is replaced or behind it. -/
theorem CommentKeepsCalls.expanded (hnext : nextLexeme before c rest = (lexeme, behindWord))
    (hopening : opening? lexeme behindWord = some (builtin, gap, inner))
    (hjudge : judge builtin (line + newlines gap)
      (Byte.openParen :: gap.reverse ++ lexeme.text.reverse ++ before) inner = .ok list)
    (hargument : ∀ argument ∈ list.arguments.take builtin.operandCount,
      ∀ line, CommentKeepsCalls b body line [] argument)
    (ih : CommentKeepsCalls b body (line + newlines (callTail gap list))
      ((callTail gap list).reverse ++ lexeme.text.reverse ++ before) list.behind) :
    CommentKeepsCalls b body line before (c :: rest) := by
  intro start front behind htext hhash hunits
  rw [outline_expanded hnext hopening hjudge, readUnits, Piece.readUnits, source_outline,
    append_of_judge hjudge, Piece.source, callUnits, List.forall_mem_append,
    List.forall_mem_append, List.forall_mem_cons] at hunits
  obtain ⟨⟨⟨halone, hlist⟩, hoperandUnits⟩, hmore⟩ := hunits
  obtain ⟨tail, htail⟩ : ∃ tail, blockComment body ++ behind = Byte.slash :: tail := ⟨_, rfl⟩
  obtain ⟨front', rest', rfl, rfl, hwhole, hnext', hopening'⟩ :=
    exists_opening_slash hb hnext hopening htext halone tail
  rw [List.length_append, ← Nat.add_assoc] at hlist hoperandUnits
  have hcall := judge_comment hb hbody hline hhash hlist fun expected harity => by
    rw [hjudge] at harity
    cases harity
  rw [hjudge] at hcall
  generalize hjudge' :
    judge builtin _ _ (front' ++ (blockComment body ++ behind)) = judged at hcall
  rw [htail] at hjudge' ⊢
  rw [hwhole, outline_expanded hnext hopening hjudge]
  cases hcall with
  | @behind _ back hfront hbehind =>
    have hindex : start + (openingText builtin gap ++ front').length =
        start + (builtin.spelling ++ callTail gap list).length + back.length := by
      simp [openingText, callTail, hfront]
      omega
    rw [hindex] at hmore
    have hsame := ih _ back behind hbehind hhash hmore
    rw [outline_expanded hnext' hopening' hjudge']
    exact hsame.call rfl rfl
  | @inside _ list' hoperands hlines hbehind =>
    obtain ⟨hexpanded, hkept⟩ := sameCalls_oneCommented hb hline hoperands hargument
      (line + newlines gap) _ hoperandUnits
    have hparen (text : Bytes) : newlines (Byte.openParen :: text) = newlines text :=
      newlines_cons_of_ne (by decide) text
    have htailLines : newlines (callTail gap list') = newlines (callTail gap list) := by
      simp only [callTail, newlines_append, hparen, hlines]
    have halike : StartsAlike ((callTail gap list).reverse ++ lexeme.text.reverse ++ before)
        ((callTail gap list').reverse ++ lexeme.text.reverse ++ before) list.behind := by
      refine .inl ?_
      rw [List.append_assoc, List.append_assoc, atLineStart_callTail, atLineStart_callTail]
    rw [outline_expanded hnext' hopening' hjudge', hbehind, htailLines,
      outline_of_startsAlike _ _ _ _ halike]
    exact SameCalls.call ⟨rfl, rfl⟩ hexpanded hkept

include hb hbody hline in
/-- The calls of every text stay the same. -/
theorem commentKeepsCalls (line : Nat) (before text : Bytes) :
    CommentKeepsCalls b body line before text := by
  induction line, before, text using outline_induction with
  | nil line before => exact fun _ front _ htext => by simp at htext
  | copied hnext hopening ih => exact .copied hb hbody hline hnext hopening ih
  | kept hnext hopening hjudge ih => exact .kept hb hbody hline hnext hopening hjudge ih
  | expanded hnext hopening hjudge hargument ih =>
    exact .expanded hb hbody hline hnext hopening hjudge hargument ih

end Outlines

/-! ## Reports -/

/-- A source has the same report with a block comment on one line in the place of a blank that
stands apart. -/
theorem report_blockComment (session : Session) {front body behind : Bytes} {b : UInt8}
    (hb : Byte.isBlank b) (hbody : KeepsOpen body) (hline : Byte.newline ∉ body)
    (happart : StandsApart front b behind) :
    (session.normalize (front ++ (blockComment body ++ behind))).1.report =
      (session.normalize (front ++ b :: behind)).1.report := by
  obtain ⟨hexpanded, hkept⟩ := commentKeepsCalls hb hbody hline 1 [] _ 0 front behind rfl
    happart.hash fun unit hunit => by
      rw [Nat.zero_add]
      exact happart.alone unit hunit
  unfold Session.normalize
  split
  · simp only [hexpanded, hkept]
  · rfl

/-- The text in front of a blank between the operands of a call in an operand. -/
def nestedFront : Bytes := ofString "__sync_lock_release(__sync_fetch_and_or(p,"

/-- A comment in an argument, with a parenthesis and stars in it. -/
theorem report_nestedComment :
    KeepsOpen (ofString "n) **") ∧ StandsApart nestedFront Byte.space (ofString "1))") ∧
      (normalize {} (nestedFront ++ (blockComment (ofString "n) **") ++ ofString "1))"))).report =
        { expanded := [.fetchAndOp .or, .lockRelease] } := by
  have hbody : KeepsOpen (ofString "n) **") := by decide +kernel
  have halone : ∀ unit ∈ readUnits 0 (outline 1 [] (nestedFront ++ Byte.space :: ofString "1))")),
      unit.LeavesAlone nestedFront.length := by decide +kernel
  have happart : StandsApart nestedFront Byte.space (ofString "1))") := ⟨halone, by decide⟩
  refine ⟨hbody, happart, ?_⟩
  exact (report_blockComment { config := {} } rfl hbody (by decide) happart).trans
    (by decide +kernel)

/-- Three blanks that do not stand apart: between a name and its parenthesis, in an empty argument
list, and in front of a directive. A comment in their place changes the report. -/
theorem report_blanksNotApart :
    (normalize {} (ofString "__sync_synchronize ()")).report = { expanded := [.synchronize] } ∧
      (normalize {} (ofString "__sync_synchronize/**/()")).report = {} ∧
      (normalize {} (ofString "__sync_lock_release( )")).report =
        { kept := [⟨1, .lockRelease, .arity 1 0⟩] } ∧
      (normalize {} (ofString "__sync_lock_release(/**/)")).report =
        { expanded := [.lockRelease] } ∧
      (normalize {} (ofString " #define A __sync_synchronize()")).report = {} ∧
      (normalize {} (ofString "/**/#define A __sync_synchronize()")).report =
        { expanded := [.synchronize] } := by
  decide +kernel

end PlainSync.Source
