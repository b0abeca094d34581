import PlainSync.Proofs.Normalize.FilledLexemes

/-!
# Fixed points

A normalized source without kept calls is normalized already, unless replacing its calls brings a
call about that was none. The second scan finds the lexemes of the first one, with the lexemes of
a replacement in the place of each call; a call comes about only where a name of a built-in gets
a parenthesis behind it.
-/

namespace PlainSync.Source

open Bytes

/-! ## Outlines that bring no call about -/

/-- What a piece begins with once its calls are replaced. -/
def Piece.unit : Piece → Bytes
  | .verbatim text => text
  | .kept builtin _ _ => builtin.spelling
  | .call _ _ _ _ => [Byte.openParen]

/-- Copied text that is over in front of a space, or a line comment. -/
def Piece.Over : Piece → Prop
  | .verbatim text => Complete text ∨ isLineComment text
  | _ => True

instance : DecidablePred Piece.Over
  | .verbatim text => inferInstanceAs (Decidable (Complete text ∨ isLineComment text))
  | .kept _ _ _ => isTrue trivial
  | .call _ _ _ _ => isTrue trivial

/-- An operand whose blanking brings no call about: its literals and block comments are closed, it
has no hash mark outside them, and no name of a built-in stands in front of a parenthesis or a
replaced call with nothing but white space, comments and backslashes between. -/
structure Blankable (operand : List Piece) : Prop where
  complete : ∀ piece ∈ operand, piece.Over
  names : NamesApart fades (operand.map Piece.unit)

instance (operand : List Piece) : Decidable (Blankable operand) :=
  decidable_of_iff ((∀ piece ∈ operand, piece.Over) ∧ NamesApart fades (operand.map Piece.unit))
    ⟨fun hboth => ⟨hboth.1, hboth.2⟩, fun hoperand => ⟨hoperand.1, hoperand.2⟩⟩

/-- A hash mark stands at the front, blanks aside. -/
def beginsWithHash : List Piece → Bool
  | .verbatim (b :: _) :: more => b = Byte.hash || Byte.isBlank b && beginsWithHash more
  | _ => false

/-- No hash mark stands behind a replaced call on its line, blanks aside. -/
def HashesApart : List Piece → Prop
  | [] => True
  | .call _ _ _ _ :: more => beginsWithHash more = false ∧ HashesApart more
  | _ :: more => HashesApart more

instance : DecidablePred HashesApart
  | [] => isTrue trivial
  | .call _ _ _ _ :: more =>
    have := instDecidablePredListPieceHashesApart more
    inferInstanceAs (Decidable (_ ∧ _))
  | .verbatim _ :: more => instDecidablePredListPieceHashesApart more
  | .kept _ _ _ :: more => instDecidablePredListPieceHashesApart more

/-- An outline whose replaced calls bring no call about. -/
structure Rescannable (site : Nat) (pieces : List Piece) : Prop where
  names : NamesApart isWhiteUnit (pieces.map Piece.unit)
  hashes : HashesApart pieces
  operands : ∀ call ∈ rewritings site pieces, ∀ operand ∈ call.operands, Blankable operand

instance (site : Nat) (pieces : List Piece) : Decidable (Rescannable site pieces) :=
  decidable_of_iff (NamesApart isWhiteUnit (pieces.map Piece.unit) ∧ HashesApart pieces ∧
      ∀ call ∈ rewritings site pieces, ∀ operand ∈ call.operands, Blankable operand)
    ⟨fun hall => ⟨hall.1, hall.2.1, hall.2.2⟩, fun hscan => ⟨hscan.1, hscan.2, hscan.3⟩⟩

/-! ## The lexemes of a rendered outline -/

/-- The lexemes that an outline is read as once it is rendered: those that are copied, and those
of the replacements. -/
inductive Reread : List Piece → List Lexeme → Prop
  | nil : Reread [] []
  | copied {lexeme : Lexeme} {pieces : List Piece} {list : List Lexeme}
    (hfirm : Complete lexeme.text → lexeme.Firm) (hmore : Reread pieces list) :
    Reread (.verbatim lexeme.text :: pieces) (lexeme :: list)
  | replaced {builtin : Builtin} {gap : Bytes} {arguments : ArgumentList}
    {operands : List (List Piece)} {inner : List Lexeme} {pieces : List Piece}
    {list : List Lexeme} (hinner : Enclosed inner) (hmore : Reread pieces list) :
    Reread (.call builtin gap arguments operands :: pieces) (inner ++ list)

/-- The names of an outline stay apart. -/
theorem Reread.namesApart {skip : Bytes → Bool} (hskip : ∀ unit, skip unit → fades unit)
    {pieces : List Piece} {list : List Lexeme} (hreread : Reread pieces list)
    (happart : NamesApart skip (pieces.map Piece.unit)) :
    NamesApart skip (list.map Lexeme.text) ∧
      (list.map Lexeme.text).find? (fun unit => !skip unit) =
        (pieces.map Piece.unit).find? (fun unit => !skip unit) := by
  have hparen {b : UInt8} (hb : fades [b] = false) : skip [b] = false := by
    rw [Bool.eq_false_iff]
    intro hskipped
    rw [hskip _ hskipped] at hb
    cases hb
  induction hreread with
  | nil => exact ⟨trivial, rfl⟩
  | @copied lexeme pieces list _ _ ih =>
    obtain ⟨hmore, hfind⟩ := ih happart.2
    simp only [List.map_cons, Piece.unit, List.find?_cons, hfind]
    refine ⟨⟨fun hbuiltin => ?_, hmore⟩, trivial⟩
    rw [hfind]
    exact happart.1 hbuiltin
  | @replaced builtin gap arguments operands inner pieces list hinner _ ih =>
    obtain ⟨hmore, -⟩ := ih happart.2
    obtain ⟨rest, hopens⟩ := hinner.opens
    obtain ⟨front, count, hcloses⟩ := hinner.closes
    constructor
    · have hfront := hinner.apart.mono hskip rfl
      rw [hcloses, List.map_append] at hfront
      rw [hcloses, List.append_assoc, List.map_append, List.cons_append, List.map_cons,
        List.map_append]
      refine hfront.of_append.1.append (hparen rfl) (by decide) ?_
      refine (namesApart_cons_of_nameless (by decide)).mpr ?_
      refine (namesApart_append_of_nameless fun unit hunit => ?_).mpr hmore
      rw [List.map_replicate] at hunit
      rw [List.eq_of_mem_replicate hunit]
      decide
    · rw [hopens, List.cons_append, List.map_cons, List.map_cons, Piece.unit, Lexeme.text,
        List.find?_cons_of_pos (by simp [hparen (b := Byte.openParen) rfl]),
        List.find?_cons_of_pos (by simp [hparen (b := Byte.openParen) rfl])]

/-- The lexemes of a rendered outline are firm or line comments. -/
theorem Reread.sound {pieces : List Piece} {list : List Lexeme} (hreread : Reread pieces list)
    (hover : ∀ piece ∈ pieces, piece.Over) :
    ∀ lexeme ∈ list, lexeme.Firm ∨ isLineComment lexeme.text := by
  induction hreread with
  | nil => exact fun _ hlexeme => absurd hlexeme List.not_mem_nil
  | copied hfirm _ ih =>
    obtain ⟨hhere, hmore⟩ := List.forall_mem_cons.mp hover
    exact List.forall_mem_cons.mpr ⟨hhere.imp_left hfirm, ih hmore⟩
  | replaced hinner _ ih =>
    intro lexeme hlexeme
    rcases List.mem_append.mp hlexeme with hin | hmore
    · exact .inl (hinner.firm lexeme hin)
    · exact ih (List.forall_mem_cons.mp hover).2 lexeme hmore

/-- A rendered operand has tidy lexemes, and so has its text. -/
theorem Reread.operandReads {operand : List Piece} {rendered : Bytes}
    (hreread : Reread operand (lexemes [] rendered)) (hblankable : Blankable operand) :
    OperandReads (operandText rendered) := by
  have hsound := hreread.sound hblankable.complete
  have hjoined : Joined [] (lexemes [] rendered) := by
    refine joined_lexemes fun lexeme hlexeme hhash => ?_
    rcases hsound lexeme hlexeme with hfirm | ⟨line, hline⟩
    · obtain ⟨b, rest, htext, hb, -⟩ := hfirm
      rw [htext] at hhash
      exact hb (Option.some.inj hhash)
    · rw [← hline] at hhash
      exact absurd (Option.some.inj hhash) (by decide)
  have htidy : Tidy (lexemes [] rendered) :=
    ⟨hjoined, hsound, (hreread.namesApart (fun _ => id) hblankable.names).1⟩
  obtain ⟨list, hlist, htidy', hfirm⟩ := htidy.exists_operandText
  exact ⟨list, by rw [hlist, textOf_lexemes], htidy', hfirm⟩

/-! ## Rendered outlines -/

/-- A rendered text looks like the text in front of it, or begins with a replaced call. -/
def LooksLike (text rendered : Bytes) : Prop :=
  sight rendered = sight text ∨
    text.head? = some Byte.underscore ∧ rendered.head? = some Byte.openParen

/-- Texts that look alike begin with a letter or digit or neither does. -/
theorem LooksLike.head?_any {text rendered : Bytes} (hlooks : LooksLike text rendered) :
    rendered.head?.any Byte.isAlphanumeric = text.head?.any Byte.isAlphanumeric := by
  rcases hlooks with hsight | ⟨htext, hrendered⟩
  · rw [head?_of_sight hsight]
  · rw [htext, hrendered]
    rfl

/-- A lexeme is read alike in front of a rendered text. -/
theorem nextLexeme_of_looksLike {before text behind rendered : Bytes} {b : UInt8} {lexeme : Lexeme}
    (hnext : nextLexeme before b (text ++ behind) = (lexeme, behind))
    (hlooks : LooksLike behind rendered) :
    nextLexeme before b (text ++ rendered) = (lexeme, rendered) := by
  rcases hlooks with hsight | ⟨hbehind, hrendered⟩
  · exact nextLexeme_of_sight hnext hsight
  · obtain ⟨tail, rfl⟩ := List.head?_eq_some_iff.mp hbehind
    have hlonger : nextLexeme before b (text ++ [Byte.underscore] ++ tail) =
        (lexeme, [Byte.underscore] ++ tail) := by
      rw [List.append_assoc]
      exact hnext
    refine nextLexeme_of_separates (nextLexeme_cut hlonger) (by decide) fun c hc => ?_
    rw [hrendered] at hc
    obtain rfl := Option.some.inj hc
    decide

/-- Behind a byte that is no blank, it does not matter whether a line started in front of it. -/
theorem atLineStart_of_not_isBlank {b : UInt8} (hb : Byte.isBlank b = false) (text before : Bytes)
    (before' : Bytes) :
    atLineStart ((b :: text).reverse ++ before') = atLineStart ((b :: text).reverse ++ before) := by
  rw [List.reverse_cons, List.append_assoc, List.append_assoc]
  refine atLineStart_append ?_ _
  rw [List.singleton_append, List.singleton_append, atLineStart_cons, atLineStart_cons, hb]
  rfl

/-- Every call is replaced, and every operand of one can be blanked. -/
structure Clean (site : Nat) (pieces : List Piece) : Prop where
  kept : keptInPieces pieces = []
  operands : ∀ call ∈ rewritings site pieces, ∀ operand ∈ call.operands, Blankable operand

/-- Operands that can be blanked have no hash mark to keep apart. -/
theorem hashesApart_of_over {pieces : List Piece} (hover : ∀ piece ∈ pieces, piece.Over) :
    beginsWithHash pieces = false ∧ HashesApart pieces := by
  induction pieces with
  | nil => exact ⟨rfl, trivial⟩
  | cons piece more ih =>
    obtain ⟨hpiece, hmore⟩ := List.forall_mem_cons.mp hover
    obtain ⟨hbegins, happart⟩ := ih hmore
    cases piece with
    | verbatim text =>
      refine ⟨?_, happart⟩
      cases text with
      | nil => rfl
      | cons b rest =>
        have hb : b ≠ Byte.hash := by
          rcases hpiece with hcomplete | ⟨line, hline⟩
          · exact hcomplete.1
          · obtain rfl : Byte.slash = b := (List.cons.inj hline).1
            decide
        rw [beginsWithHash, hbegins, Bool.and_false, Bool.or_false]
        exact decide_eq_false hb
    | kept builtin line reason => exact ⟨rfl, happart⟩
    | call builtin gap list operands => exact ⟨rfl, hbegins, happart⟩

/-- The texts of operands have tidy lexemes. -/
theorem operandReads_of_renderOperands {arguments : List Bytes}
    (hall : ∀ argument ∈ arguments, ∀ line site, Clean site (outline line [] argument) →
      Blankable (outline line [] argument) →
        OperandReads (operandText (renderPieces site (outline line [] argument)).1))
    (line site : Nat) (hkept : keptInOperands (outlineOperands line arguments) = [])
    (hcalls : ∀ call ∈ operandRewritings site (outlineOperands line arguments),
      ∀ operand ∈ call.operands, Blankable operand)
    (hblankable : ∀ operand ∈ outlineOperands line arguments, Blankable operand) :
    ∀ text ∈ (renderOperands site (outlineOperands line arguments)).1, OperandReads text := by
  induction arguments generalizing line site with
  | nil =>
    rw [outlineOperands]
    exact fun text htext => absurd htext List.not_mem_nil
  | cons argument more ih =>
    rw [outlineOperands] at hkept hcalls hblankable ⊢
    rw [keptInOperands, List.append_eq_nil_iff] at hkept
    rw [operandRewritings, List.forall_mem_append] at hcalls
    rw [List.forall_mem_cons] at hblankable
    rw [renderOperands, List.forall_mem_cons]
    exact ⟨hall argument List.mem_cons_self line site ⟨hkept.1, hcalls.1⟩ hblankable.1,
      ih (fun other hother => hall other (List.mem_cons_of_mem _ hother)) _ _ hkept.2 hcalls.2
        hblankable.2⟩

/-- A rendered outline is read as the lexemes that are copied and those of the replacements. What
stands before it may differ from what stands before the source, if no hash mark depends on it. -/
def Rereadable (line : Nat) (before text : Bytes) : Prop :=
  ∀ site before', Clean site (outline line before text) →
    HashesApart (outline line before text) →
    (atLineStart before' = atLineStart before ∨
      beginsWithHash (outline line before text) = false) →
    Reread (outline line before text)
        (lexemes before' (renderPieces site (outline line before text)).1) ∧
      LooksLike text (renderPieces site (outline line before text)).1

section Outline

variable {line : Nat} {before rest behind gap inner : Bytes} {b : UInt8} {lexeme : Lexeme}
  {builtin : Builtin}

/-- A lexeme that is copied is read again. -/
theorem Rereadable.copied (hnext : nextLexeme before b rest = (lexeme, behind))
    (hopening : opening? lexeme behind = none)
    (hbehind : Rereadable (line + newlines lexeme.text) (lexeme.text.reverse ++ before) behind) :
    Rereadable line before (b :: rest) := by
  intro site before' hclean hhashes hstart
  rw [outline_copied hnext hopening] at hclean hhashes hstart ⊢
  obtain ⟨unit, htext, rfl⟩ := exists_text_eq_cons hnext
  have hrender (text : Bytes) (pieces : List Piece) :
      (renderPieces site (.verbatim text :: pieces)).1 = text ++ (renderPieces site pieces).1 := rfl
  have hhere : b = Byte.hash → atLineStart before' = atLineStart before := by
    rintro rfl
    refine hstart.resolve_right fun hnone => ?_
    rw [htext, beginsWithHash] at hnone
    cases hnone
  have hmoreStart : atLineStart (lexeme.text.reverse ++ before') =
      atLineStart (lexeme.text.reverse ++ before) ∨ beginsWithHash (outline
        (line + newlines lexeme.text) (lexeme.text.reverse ++ before) behind) = false := by
    rcases hstart with hstart | hnone
    · exact .inl (atLineStart_append hstart _)
    · rw [htext, beginsWithHash, Bool.or_eq_false_iff, Bool.and_eq_false_iff] at hnone
      rcases hnone.2 with hblank | hmore
      · rw [htext]
        exact .inl (atLineStart_of_not_isBlank hblank _ _ _)
      · rw [htext]
        exact .inr hmore
  obtain ⟨hreread, hlooks⟩ := hbehind site (lexeme.text.reverse ++ before')
    ⟨hclean.kept, hclean.operands⟩ hhashes hmoreStart
  have hagain : nextLexeme before' b (unit ++ behind) = (lexeme, behind) := by
    by_cases hhash : b = Byte.hash
    · rw [nextLexeme_of_atLineStart (hhere hhash), hnext]
    · rw [nextLexeme_of_ne_hash hhash before, hnext]
  rw [hrender]
  generalize (renderPieces site _).1 = rendered at hreread hlooks ⊢
  have hwhole (tail : Bytes) : lexeme.text ++ tail = b :: (unit ++ tail) := by
    rw [htext, List.cons_append]
  constructor
  · rw [hwhole, lexemes_cons (nextLexeme_of_looksLike hagain hlooks)]
    exact .copied (fun hcomplete => hcomplete.firm hnext) hreread
  · rw [← hwhole]
    exact .inl (sight_append (by simp [htext]) hlooks.head?_any)

/-- The operands of a replaced call have tidy lexemes, and so has what it is replaced with. -/
theorem Rereadable.expanded {list : ArgumentList}
    (hnext : nextLexeme before b rest = (lexeme, behind))
    (hopening : opening? lexeme behind = some (builtin, gap, inner))
    (hjudge : judge builtin (line + newlines gap)
      (Byte.openParen :: gap.reverse ++ lexeme.text.reverse ++ before) inner = .ok list)
    (harguments : ∀ argument ∈ list.arguments.take builtin.operandCount, ∀ line,
      Rereadable line [] argument)
    (hbehind : Rereadable (line + newlines (callTail gap list))
      ((callTail gap list).reverse ++ lexeme.text.reverse ++ before) list.behind) :
    Rereadable line before (b :: rest) := by
  intro site before' hclean hhashes hstart
  rw [outline_expanded hnext hopening hjudge] at hclean hhashes hstart ⊢
  let call : Rewriting := ⟨site, builtin, gap, list,
    outlineOperands (line + newlines gap) (list.arguments.take builtin.operandCount)⟩
  obtain ⟨hkept, hmoreKept⟩ := List.append_eq_nil_iff.mp hclean.kept
  obtain ⟨hcalls, hmoreCalls⟩ := List.forall_mem_append.mp hclean.operands
  obtain ⟨hinnerCalls, hself⟩ := List.forall_mem_append.mp hcalls
  have htexts : ∀ text ∈ call.texts, OperandReads text := by
    refine operandReads_of_renderOperands (fun argument hmem line site hclean hblankable => ?_)
      (line + newlines gap) site hkept hinnerCalls (hself call (List.mem_singleton_self call))
    obtain ⟨-, hhashes⟩ := hashesApart_of_over hblankable.complete
    obtain ⟨hreread, -⟩ := harguments argument hmem line site [] hclean hhashes (.inl rfl)
    exact hreread.operandReads hblankable
  obtain ⟨enclosed, henclosed, hinner⟩ := call.exists_enclosed htexts
  obtain ⟨hreread, -⟩ := hbehind (call.piece.render site).2 ((textOf enclosed).reverse ++ before')
    ⟨hmoreKept, hmoreCalls⟩ hhashes.2 (.inr hhashes.1)
  have hrender (pieces : List Piece) :
      (renderPieces site (.call builtin gap list (outlineOperands (line + newlines gap)
        (list.arguments.take builtin.operandCount)) :: pieces)).1 =
        call.text ++ (renderPieces (call.piece.render site).2 pieces).1 := rfl
  rw [hrender, ← henclosed]
  constructor
  · rw [lexemes_of_joined (hinner.joined _)]
    exact .replaced hinner hreread
  · obtain ⟨rest, hopens⟩ := hinner.opens
    obtain ⟨rfl, -, -⟩ := opening?_eq_some.mp hopening
    obtain ⟨text, htext, -⟩ := exists_text_eq_cons hnext
    have hunderscore := head?_spelling builtin
    rw [show builtin.spelling = b :: text from htext] at hunderscore
    exact .inr ⟨hunderscore, by rw [hopens]; rfl⟩

end Outline

/-- Every outline without kept calls is read again as it is rendered. -/
theorem rereadable (line : Nat) (before text : Bytes) : Rereadable line before text := by
  induction line, before, text using outline_induction with
  | nil line before =>
    intro site before' _ _ _
    rw [outline, renderPieces, lexemes_nil]
    exact ⟨.nil, .inl rfl⟩
  | copied hnext hopening hbehind => exact .copied hnext hopening hbehind
  | kept hnext hopening hjudge =>
    intro site before' hclean
    rw [outline_kept hnext hopening hjudge] at hclean
    cases hclean.kept
  | expanded hnext hopening hjudge harguments hbehind =>
    exact .expanded hnext hopening hjudge harguments hbehind

/-! ## Normalizing again -/

/-- Lexemes that are copied make up their text and replace nothing. -/
theorem render_map_verbatim (site : Nat) (list : List Lexeme) :
    renderPieces site (list.map fun lexeme => .verbatim lexeme.text) = (textOf list, site) ∧
      expandedPieces (list.map fun lexeme => .verbatim lexeme.text) = [] ∧
      keptInPieces (list.map fun lexeme => .verbatim lexeme.text) = [] := by
  induction list with
  | nil => exact ⟨rfl, rfl, rfl⟩
  | cons lexeme more ih =>
    obtain ⟨hrender, hexpanded, hkept⟩ := ih
    refine ⟨?_, hexpanded, hkept⟩
    simp only [List.map_cons, renderPieces, Piece.render, hrender, textOf_cons]

/-- A normalized source without kept calls is normalized already, if replacing its calls brings no
call about. -/
theorem normalize_normalize {session : Session} {source : Bytes}
    (hkept : (session.normalize source).1.report.kept = [])
    (hscan : session.config.normalizeAtomics → Rescannable session.site (outline 1 [] source)) :
    normalize session.config (session.normalize source).1.text =
      ⟨(session.normalize source).1.text,
        { passthrough := !session.config.normalizeAtomics }⟩ := by
  by_cases henabled : session.config.normalizeAtomics = true
  · simp only [normalize, Session.normalize, henabled, if_true] at hkept ⊢
    obtain ⟨hnames, hhashes, hoperands⟩ := hscan henabled
    obtain ⟨hreread, -⟩ :=
      rereadable 1 [] source session.site [] ⟨hkept, hoperands⟩ hhashes (.inl rfl)
    generalize (renderPieces session.site (outline 1 [] source)).1 = text at hreread ⊢
    have happart := (hreread.namesApart (fun _ => fades_of_isWhiteUnit) hnames).1
    obtain ⟨hrender, hexpanded, hnoneKept⟩ := render_map_verbatim 0 (lexemes [] text)
    rw [outline_of_namesApart 1 [] text happart, hrender, hexpanded, hnoneKept, textOf_lexemes]
    rfl
  · simp [normalize, Session.normalize, henabled]

/-- Nested calls with comments and line ends among their operands, and names that call nothing. -/
def commentedCalls : Bytes :=
  ofString "f(__sync_synchronize, __sync_fetch_and_add(&n, // \"(\n"
    ++ ofString "__sync_lock_release(p /* # */)));"

/-- The replaced calls are not replaced again. -/
theorem normalize_commentedCalls :
    (Session.normalize ⟨{}, 7⟩ commentedCalls).1.report =
        { expanded := [.lockRelease, .fetchAndOp .add] } ∧
      Rescannable 7 (outline 1 [] commentedCalls) ∧
      normalize {} (Session.normalize ⟨{}, 7⟩ commentedCalls).1.text =
        ⟨(Session.normalize ⟨{}, 7⟩ commentedCalls).1.text, {}⟩ := by
  obtain ⟨hreport, hscan⟩ : (Session.normalize ⟨{}, 7⟩ commentedCalls).1.report =
      { expanded := [.lockRelease, .fetchAndOp .add] } ∧
        Rescannable 7 (outline 1 [] commentedCalls) := by decide +kernel
  exact ⟨hreport, hscan, @normalize_normalize ⟨{}, 7⟩ _ (by rw [hreport]) fun _ => hscan⟩

/-- A name with a line comment between it and its parenthesis, in the operand of a call. -/
def hiddenCall : Bytes :=
  ofString "__sync_fetch_and_add(&n, __sync_fetch_and_add // old\n(&m, 1))"

/-- The comment hides the inner call from the first scan, which drops the comment. -/
theorem report_hiddenCall :
    (normalize {} hiddenCall).report = { expanded := [.fetchAndOp .add] } ∧
      (normalize {} (normalize {} hiddenCall).text).report =
        { expanded := [.fetchAndOp .add] } := by
  decide +kernel

end PlainSync.Source
