import PlainSync.Proofs.Normalize.NestedCalls

/-!
# Normalization of nested calls

The expansion of plain operands is plain, so an inner call that is replaced leaves nothing
behind that blanking, padding or trimming would touch. The translation of a tree is then what
its printed source is normalized to.
-/

namespace PlainSync.Source

open Bytes Reading

/-! ## Plain expansions -/

/-- An expansion has only plain bytes of its own. -/
theorem isPlain_of_mem_template {builtin : Builtin} {b : UInt8}
    (hb : Symbol.byte b ∈ template builtin) : isPlain b := by
  have hall : ((template builtin).filterMap Symbol.byte?).all isPlain := by
    cases builtin with
    | fetchAndOp update | opAndFetch update => cases update <;> decide +kernel
    | _ => decide +kernel
  exact List.all_eq_true.mp hall b (List.mem_filterMap.mpr ⟨.byte b, hb, rfl⟩)

/-- The names of temporaries are plain. -/
theorem plain_numbered (site : Nat) :
    Plain (Temporaries.numbered site).pointer ∧ Plain (Temporaries.numbered site).saved := by
  have hnumeral : Plain (ofString (toString site)) :=
    plain_of_joinsWord fun b hb => by
      simp [joinsWord, Byte.continuesIdentifier, Byte.isAlphanumeric,
        isDigit_of_mem_numeral site b hb]
  simp only [Temporaries.numbered, ofString_append, plain_append]
  exact ⟨⟨by decide, hnumeral⟩, ⟨by decide, hnumeral⟩⟩

/-- The expansion of plain operands is plain. -/
theorem plain_program (builtin : Builtin) {operands : Operands} (site : Nat)
    (hpointer : Plain operands.pointer) (hpointerType : Plain operands.pointerType)
    (hvalues : ∀ value ∈ operands.values, Plain value) :
    Plain ((Expansion.program builtin).text operands (.numbered site)) := by
  obtain ⟨hpointerName, hsavedName⟩ := plain_numbered site
  rw [← fill_template]
  intro b hb
  obtain ⟨symbol, hsymbol, hmem⟩ := List.mem_flatMap.mp hb
  cases symbol with
  | byte c =>
    rw [List.mem_singleton.mp hmem]
    exact isPlain_of_mem_template hsymbol
  | slot place =>
    cases place with
    | pointer => exact hpointer b hmem
    | pointerType => exact hpointerType b hmem
    | pointerName => exact hpointerName b hmem
    | savedName => exact hsavedName b hmem
    | value index =>
      cases hvalue : operands.values[index]? with
      | none => simp [Symbol.text, Slot.text, hvalue] at hmem
      | some value =>
        simp only [Symbol.text, Slot.text, hvalue, Option.getD_some] at hmem
        exact hvalues value (List.mem_of_getElem? hvalue) b hmem

/-- The text that replaces a call on one line, from plain operands. -/
theorem callText_of_plain {builtin : Builtin} {gap : Bytes} {list : ArgumentList}
    {texts : List Bytes} (site : Nat)
    (hlines : newlines (builtin.spelling ++ callTail gap list) = 0)
    (htexts : ∀ text ∈ texts, Plain text) (hcount : texts.length = builtin.operandCount) :
    expand? builtin ⟨texts.head?.getD [], texts.head?.getD [], texts.tail⟩ (.numbered site) =
        some (callText builtin gap list texts site) ∧
      Plain (callText builtin gap list texts site) := by
  have hpointer : Plain (texts.head?.getD []) := by
    cases texts with
    | nil => exact fun b hb => absurd hb List.not_mem_nil
    | cons text more => exact htexts text (by simp)
  have hoperands : callOperands texts = ⟨texts.head?.getD [], texts.head?.getD [], texts.tail⟩ := by
    rw [callOperands, onOneLine_of_plain hpointer]
  have htext : callText builtin gap list texts site =
      (Expansion.program builtin).text
        ⟨texts.head?.getD [], texts.head?.getD [], texts.tail⟩ (.numbered site) := by
    rw [callText, hoperands, padLines, hlines, Nat.zero_sub, List.replicate_zero, List.append_nil]
  rw [htext]
  constructor
  · have hvalues : ¬ texts.tail.length < builtin.valueCount := by
      rw [List.length_tail, hcount, Builtin.valueCount]
      exact Nat.lt_irrefl _
    rw [expand?, if_neg hvalues]
  · exact plain_program builtin site hpointer hpointer
      fun value hvalue => htexts value (List.mem_of_mem_tail hvalue)

/-- A plain operand is only trimmed. -/
theorem operandText_of_plain {rendered : Bytes} (hplain : Plain rendered) :
    operandText rendered = rendered.trim := by
  rw [operandText, withoutLineComments_of_plain (hplain.mono (infix_trim rendered)), trim_trim]

/-! ## Rendered trees -/

/-- Copied lexemes are rendered as they are. -/
theorem render_verbatim (site : Nat) (list : List Lexeme) (more : List Piece) :
    renderPieces site (list.map (fun lexeme => Piece.verbatim lexeme.text) ++ more) =
        (textOf list ++ (renderPieces site more).1, (renderPieces site more).2) ∧
      expandedPieces (list.map (fun lexeme => Piece.verbatim lexeme.text) ++ more) =
        expandedPieces more ∧
      keptInPieces (list.map (fun lexeme => Piece.verbatim lexeme.text) ++ more) =
        keptInPieces more := by
  induction list with
  | nil => exact ⟨rfl, rfl, rfl⟩
  | cons lexeme list ih =>
    obtain ⟨hrender, hexpanded, hkept⟩ := ih
    rw [List.map_cons, List.cons_append]
    refine ⟨?_, ?_, ?_⟩
    · simp only [renderPieces, Piece.render, hrender, textOf_cons, List.append_assoc]
    · rw [expandedPieces, hexpanded]
      rfl
    · rw [keptInPieces, hkept]
      rfl

/-- A piece is rendered to what a call is translated to. -/
structure RendersCall (piece : Piece) (call : CallTree) : Prop where
  translate : ∀ site, call.translate? site = some (piece.render site)
  plain : ∀ site, Plain (piece.render site).1
  expanded : piece.expanded = call.translated
  kept : piece.keptCalls = []

/-- An outline is rendered to what an argument is translated to. -/
structure RendersArgument (pieces : List Piece) (argument : ArgumentTree) : Prop where
  translate : ∀ site, argument.translate? site = some (renderPieces site pieces)
  plain : ∀ site, Plain (renderPieces site pieces).1
  expanded : expandedPieces pieces = argument.translated
  kept : keptInPieces pieces = []

/-- The outlines of operands are rendered to what the first arguments are translated to. -/
structure RendersOperands (operands : List (List Piece)) (count : Nat)
    (arguments : List ArgumentTree) : Prop where
  translate : ∀ site, translateOperands? site count arguments = some (renderOperands site operands)
  plain : ∀ site, ∀ text ∈ (renderOperands site operands).1, Plain text
  expanded : expandedOperands operands = translatedOperands count arguments
  kept : keptInOperands operands = []

/-- What stands before plain text does not make it call anything. -/
theorem Inert.callless_before {other : Bytes} (hother : Inert other) (before : Bytes) :
    Callless (lexemes before other) := by
  rw [lexemes_of_hashless (hashless_of_plain hother.plain : Hashless (lexemes [] other))]
  exact hother.callless

mutual

/-- A well-formed call is outlined as one piece. -/
theorem CallTree.renders (call : CallTree) (hcall : call.WellFormed) (line : Nat)
    (before tail : Bytes) :
    ∃ piece, outline line before (call.print ++ tail) =
        piece :: outline line (call.print.reverse ++ before) tail ∧
      RendersCall piece call := by
  cases call with
  | call builtin arguments =>
    obtain ⟨list, houtline, hlines⟩ := outline_printed hcall line before tail
    refine ⟨_, houtline, ?_⟩
    obtain ⟨hcount, -, harguments⟩ := hcall
    have hoperands := renders_operands arguments harguments line builtin.operandCount
    have hlength (site : Nat) : (renderOperands site (outlineOperands line
        ((printArguments arguments).take builtin.operandCount))).1.length =
          builtin.operandCount := by
      rw [length_renderOperands, length_outlineOperands, List.length_take, length_printArguments]
      exact Nat.min_eq_left hcount
    have htext (site : Nat) := callText_of_plain (renderOperands site (outlineOperands line
      ((printArguments arguments).take builtin.operandCount))).2 hlines (hoperands.plain site)
      (hlength site)
    constructor
    · intro site
      simp only [CallTree.translate?, hoperands.translate, Option.bind_eq_bind, Option.bind_some,
        (htext site).1]
      rfl
    · exact fun site => (htext site).2
    · rw [Piece.expanded, hoperands.expanded]
      rfl
    · exact hoperands.kept

/-- A well-formed argument is outlined as it is built. -/
theorem ArgumentTree.renders (argument : ArgumentTree) (hargument : argument.WellFormed)
    (line : Nat) (before : Bytes) :
    RendersArgument (outline line before argument.print) argument := by
  cases argument with
  | text other =>
    have houtline : outline line before (other ++ []) = _ :=
      outline_plain_append hargument.plain (Inert.callless_before hargument before) (.inl rfl)
    rw [List.append_nil, outline] at houtline
    rw [ArgumentTree.print, houtline]
    have hcopied (site : Nat) := render_verbatim site (lexemes before other) []
    simp only [textOf_lexemes, renderPieces, List.append_nil] at hcopied
    rw [List.append_nil]
    constructor
    · intro site
      rw [(hcopied site).1]
      rfl
    · intro site
      rw [(hcopied site).1]
      exact hargument.plain
    · exact (hcopied 0).2.1
    · exact (hcopied 0).2.2
  | before other call rest =>
    obtain ⟨hother, hapart, hcall, hrest⟩ := hargument
    obtain ⟨piece, hpiece, htranslate, hplain, hexpanded, hkept⟩ :=
      call.renders hcall line (other.reverse ++ before) rest.print
    have hbehind := rest.renders hrest line (call.print.reverse ++ (other.reverse ++ before))
    rw [ArgumentTree.print, List.append_assoc,
      outline_plain_append hother.plain (hother.callless_before before) (.inr hapart), hpiece]
    generalize outline line (call.print.reverse ++ (other.reverse ++ before)) rest.print =
      pieces at hbehind
    have hcopied (site : Nat) := render_verbatim site (lexemes before other) (piece :: pieces)
    simp only [textOf_lexemes, renderPieces, expandedPieces, keptInPieces] at hcopied
    constructor
    · intro site
      rw [(hcopied site).1]
      simp only [ArgumentTree.translate?, htranslate, hbehind.translate, Option.bind_eq_bind,
        Option.bind_some, List.append_assoc]
      rfl
    · intro site
      rw [(hcopied site).1, plain_append, plain_append]
      exact ⟨hother.plain, hplain site, hbehind.plain _⟩
    · rw [(hcopied 0).2.1, hexpanded, hbehind.expanded]
      rfl
    · rw [(hcopied 0).2.2, hkept, hbehind.kept]
      rfl

/-- The arguments of a well-formed call are outlined as they are built. -/
theorem renders_operands (arguments : List ArgumentTree)
    (harguments : ArgumentsWellFormed arguments) (line count : Nat) :
    RendersOperands (outlineOperands line ((printArguments arguments).take count)) count
      arguments := by
  cases arguments with
  | nil =>
    rw [printArguments, List.take_nil, outlineOperands]
    exact ⟨fun site => rfl, fun site text htext => absurd htext List.not_mem_nil, rfl, rfl⟩
  | cons argument more =>
    cases count with
    | zero =>
      rw [List.take_zero, outlineOperands]
      exact ⟨fun site => rfl, fun site text htext => absurd htext List.not_mem_nil, rfl, rfl⟩
    | succ count =>
      obtain ⟨hargument, -, hmore⟩ := harguments
      rw [printArguments, List.take_succ_cons, outlineOperands]
      have hfirst := argument.renders hargument line []
      have hothers := renders_operands more hmore (line + newlines argument.print) count
      generalize outline line [] argument.print = pieces at hfirst
      generalize outlineOperands (line + newlines argument.print)
        ((printArguments more).take count) = operands at hothers
      constructor
      · intro site
        simp only [translateOperands?, hfirst.translate, hothers.translate, Option.bind_eq_bind,
          Option.bind_some, renderOperands, operandText_of_plain (hfirst.plain site)]
        rfl
      · intro site text htext
        rw [renderOperands] at htext
        rcases List.mem_cons.mp htext with rfl | hmem
        · rw [operandText_of_plain (hfirst.plain site)]
          exact (hfirst.plain site).mono (infix_trim _)
        · exact hothers.plain _ text hmem
      · rw [expandedOperands, hfirst.expanded, hothers.expanded]
        rfl
      · rw [keptInOperands, hfirst.kept, hothers.kept]
        rfl

end

/-- The source of a tree is normalized to the translation of the tree. -/
theorem normalize_print {call : CallTree} (hcall : call.WellFormed) (session : Session)
    (henabled : session.config.normalizeAtomics = true) :
    ∃ text site, call.translate? session.site = some (text, site) ∧
      session.normalize call.print =
        (⟨text, { expanded := call.translated }⟩, { session with site := site }) := by
  obtain ⟨piece, houtline, hpiece⟩ := call.renders hcall 1 [] []
  rw [List.append_nil, outline] at houtline
  refine ⟨(piece.render session.site).1, (piece.render session.site).2,
    hpiece.translate session.site, ?_⟩
  simp only [Session.normalize, henabled, if_true, houtline, renderPieces, expandedPieces,
    keptInPieces, hpiece.expanded, hpiece.kept, List.append_nil]

/-- Two calls inside a third one, which has an argument too many. -/
def threeCalls : CallTree :=
  .call (.fetchAndOp .add)
    [.before (Bytes.ofString "base[") (.call .lockRelease [.text (Bytes.ofString "&q")])
        (.text (Bytes.ofString "]")),
      .before (Bytes.ofString " 2 +") (.call .synchronize []) (.text []),
      .text (Bytes.ofString " f(x, y)")]

/-- Three calls in one another are replaced from the inside. -/
theorem normalize_threeCalls :
    threeCalls.WellFormed ∧
      ∃ text site, threeCalls.translate? 3 = some (text, site) ∧
        Session.normalize { config := {}, site := 3 } threeCalls.print =
          (⟨text, { expanded := threeCalls.translated }⟩, { config := {}, site := site }) := by
  have hcall : threeCalls.WellFormed := by
    simp only [threeCalls, CallTree.WellFormed, ArgumentsWellFormed, ArgumentTree.WellFormed]
    decide +kernel
  exact ⟨hcall, normalize_print hcall { config := {}, site := 3 } rfl⟩

end PlainSync.Source
