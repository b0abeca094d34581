import PlainSync.Proofs.Normalize.Lines

/-!
# Line numbers of a normalized source

Every replacement has the line ends of its call if no pointer keeps a line end on the one line
that its type is taken on. A source without a backslash in front of a line end has no such
pointer. What is copied from outside the calls then stands on its old line.
-/

namespace PlainSync.Source

open Bytes Reading

/-! ## Sources without splices -/

/-- A splice begins at the first byte or behind it. -/
theorem spliced_cons {b : UInt8} {rest : Bytes} :
    Spliced (b :: rest) ↔
      (b = Byte.backslash ∧ rest.head? = some Byte.newline) ∨ Spliced rest := by
  unfold Spliced
  rw [List.infix_cons_iff, List.cons_prefix_cons, eq_comm]
  cases rest with
  | nil => simp
  | cons c rest => simp [List.cons_prefix_cons, eq_comm]

/-- The empty text has no splice. -/
theorem not_spliced_nil : ¬ Spliced [] := by decide

/-- A splice of a text is one of its front or of its back, or these meet there. -/
theorem spliced_append {front back : Bytes} :
    Spliced (front ++ back) ↔
      Spliced front ∨ Spliced back ∨
        (front.getLast? = some Byte.backslash ∧ back.head? = some Byte.newline) := by
  induction front with
  | nil => simp [not_spliced_nil]
  | cons b front ih =>
    rw [List.cons_append, spliced_cons, ih, spliced_cons]
    cases front with
    | nil =>
      simp only [List.nil_append, List.head?_nil, List.getLast?_nil, List.getLast?_singleton,
        not_spliced_nil, reduceCtorEq, and_false, false_and, false_or, or_false,
        Option.some.injEq]
      exact or_comm
    | cons c front => simp [or_assoc]

/-- A rewritten text is spliced only if the text is, and begins with a line end only if the
text does. -/
structure KeepsApart (rewritten text : Bytes) : Prop where
  spliced : Spliced rewritten → Spliced text
  head : rewritten.head? = some Byte.newline → text.head? = some Byte.newline

namespace KeepsApart

variable {rewritten text : Bytes}

/-- A front may be copied. -/
theorem append (hapart : KeepsApart rewritten text) (front : Bytes) :
    KeepsApart (front ++ rewritten) (front ++ text) := by
  constructor
  · rw [spliced_append, spliced_append]
    rintro (hfront | hback | ⟨hlast, hhead⟩)
    · exact .inl hfront
    · exact .inr (.inl (hapart.spliced hback))
    · exact .inr (.inr ⟨hlast, hapart.head hhead⟩)
  · cases front with
    | nil => exact hapart.head
    | cons b front => exact id

/-- A front may be replaced by text that neither begins with a line end nor ends with a
backslash. -/
theorem replace (hapart : KeepsApart rewritten text) (front front' : Bytes)
    (hfront : Spliced front' → Spliced front) {b : UInt8} (hhead : front'.head? = some b)
    (hb : b ≠ Byte.newline) (hlast : front'.getLast? ≠ some Byte.backslash) :
    KeepsApart (front' ++ rewritten) (front ++ text) := by
  constructor
  · rw [spliced_append, spliced_append]
    rintro (hspliced | hback | ⟨hbackslash, -⟩)
    · exact .inl (hfront hspliced)
    · exact .inr (.inl (hapart.spliced hback))
    · exact absurd hbackslash hlast
  · intro hnewline
    cases front' with
    | nil => cases hhead
    | cons c front' =>
      simp only [List.cons_append, List.head?_cons, Option.some.injEq] at hhead hnewline
      exact absurd (hhead.symm.trans hnewline) hb

end KeepsApart

/-- Dropping line comments makes no splice. -/
theorem withoutLineComments_keepsApart (before text : Bytes) :
    KeepsApart (withoutLineComments before text) text := by
  fun_induction withoutLineComments before text with
  | case1 before => exact ⟨id, id⟩
  | case2 before b rest hcomment ih =>
    have hwhole : b :: (splitLine rest).1 ++ (splitLine rest).2 = b :: rest :=
      congrArg (b :: ·) (splitLine_append rest)
    have hcut := ih.replace (b :: (splitLine rest).1) [Byte.space]
      (fun hspliced => absurd hspliced (by decide)) rfl (by decide) (by decide)
    rw [hwhole] at hcut
    exact hcut
  | case3 before b rest hcomment hdigit body ih =>
    have hwhole : b :: body ++ (splitNumberBody b rest).2 = b :: rest :=
      congrArg (b :: ·) (splitNumberBody_append b rest)
    have hcut := ih.append (b :: body)
    rw [hwhole] at hcut
    exact hcut
  | case4 before b rest hcomment hnumber unit behind htrivia ih =>
    have hcut := ih.append unit
    rwa [append_of_splitTrivia? htrivia] at hcut
  | case5 before b rest hcomment hnumber htrivia ih => exact ih.append [b]

/-- An operand is spliced only if what it is rendered from is. -/
theorem Spliced.of_operandText {rendered : Bytes} (hspliced : Spliced (operandText rendered)) :
    Spliced rendered :=
  ((withoutLineComments_keepsApart [] rendered.trim).spliced
    (hspliced.mono (infix_trim _))).mono (infix_trim rendered)

def isSlot : Symbol → Bool
  | .slot _ => true
  | .byte _ => false

/-- No slot of a template follows on another. -/
def slotsApart : List Symbol → Bool
  | [] => true
  | symbol :: more => !(isSlot symbol && more.head?.any isSlot) && slotsApart more

/-- An expansion has no backslash of its own, stands in parentheses and has bytes between any
two operands. -/
theorem template_shape (builtin : Builtin) :
    slotsApart (template builtin) ∧ Symbol.byte Byte.backslash ∉ template builtin ∧
      (template builtin).head? = some (.byte Byte.openParen) ∧
      (template builtin).getLast? = some (.byte Byte.closeParen) := by
  cases builtin with
  | fetchAndOp update | opAndFetch update => cases update <;> decide +kernel
  | _ => decide +kernel

/-- A filled template has no splice that its slots do not have. -/
theorem not_spliced_fill {operands : Operands} {names : Temporaries} {symbols : List Symbol}
    (hslots : ∀ place : Slot, ¬ Spliced (place.text operands names))
    (hnewline : Symbol.byte Byte.newline ∉ symbols)
    (hbackslash : Symbol.byte Byte.backslash ∉ symbols) (happart : slotsApart symbols) :
    ¬ Spliced (fill operands names symbols) := by
  induction symbols with
  | nil => exact not_spliced_nil
  | cons symbol more ih =>
    rw [List.mem_cons, not_or] at hnewline hbackslash
    obtain ⟨hnext, hmore⟩ := (Bool.and_eq_true _ _).mp happart
    have hfill : fill operands names (symbol :: more) =
        symbol.text operands names ++ fill operands names more := rfl
    rw [hfill, spliced_append]
    rintro (hhere | hback | ⟨hlast, hhead⟩)
    · cases symbol with
      | byte b => exact absurd hhere (by simp [Symbol.text, spliced_cons, not_spliced_nil])
      | slot place => exact hslots place hhere
    · exact ih hnewline.2 hbackslash.2 hmore hback
    · cases symbol with
      | byte b =>
        have hb : b = Byte.backslash := by simpa [Symbol.text] using hlast
        exact hbackslash.1 (by rw [hb])
      | slot place =>
        cases more with
        | nil => cases hhead
        | cons next more =>
          cases next with
          | byte b =>
            have hb : b = Byte.newline := by simpa [fill, Symbol.text] using hhead
            exact hnewline.2 (by simp [hb])
          | slot place => cases hnext

/-- Text on one line is not spliced. -/
theorem not_spliced_of_newlines {text : Bytes} (htext : newlines text = 0) : ¬ Spliced text := by
  intro hspliced
  have hone := newlines_infix_le hspliced
  rw [htext] at hone
  exact absurd hone (by decide)

/-- An expansion stands in parentheses. -/
theorem program_parenthesized (builtin : Builtin) (operands : Operands) (names : Temporaries) :
    ((Expansion.program builtin).text operands names).head? = some Byte.openParen ∧
      ((Expansion.program builtin).text operands names).getLast? = some Byte.closeParen := by
  obtain ⟨-, -, hhead, hlast⟩ := template_shape builtin
  rw [← fill_template]
  constructor
  · obtain ⟨more, hsymbols⟩ := List.head?_eq_some_iff.mp hhead
    rw [hsymbols]
    rfl
  · obtain ⟨more, hsymbols⟩ := List.getLast?_eq_some_iff.mp hlast
    rw [hsymbols]
    simp [fill, Symbol.text]

/-- An expansion stands in parentheses, and its splices are those of its operands. -/
theorem program_shape (builtin : Builtin) {operands : Operands} (site : Nat)
    (hpointer : ¬ Spliced operands.pointer) (hpointerType : ¬ Spliced operands.pointerType)
    (hvalues : ∀ value ∈ operands.values, ¬ Spliced value) {text : Bytes}
    (htext : text = (Expansion.program builtin).text operands (.numbered site)) :
    ¬ Spliced text ∧ text.head? = some Byte.openParen ∧
      text.getLast? = some Byte.closeParen := by
  obtain ⟨happart, hbackslash, -, -⟩ := template_shape builtin
  obtain ⟨hpointerName, hsavedName⟩ := newlines_numbered site
  rw [htext]
  refine ⟨?_, program_parenthesized builtin operands _⟩
  rw [← fill_template]
  refine not_spliced_fill (fun place => ?_) (newline_not_mem_template builtin) hbackslash happart
  cases place with
  | pointer => exact hpointer
  | pointerType => exact hpointerType
  | pointerName => exact not_spliced_of_newlines hpointerName
  | savedName => exact not_spliced_of_newlines hsavedName
  | value index =>
    cases hvalue : operands.values[index]? with
    | none => simpa [Slot.text, hvalue] using not_spliced_nil
    | some value =>
      simpa [Slot.text, hvalue] using hvalues value (List.mem_of_getElem? hvalue)

/-- Padding changes neither the first byte of a text nor what may follow it. -/
theorem padLines_shape {written replacement : Bytes} (hspliced : ¬ Spliced replacement)
    (hhead : replacement.head? = some Byte.openParen)
    (hlast : replacement.getLast? = some Byte.closeParen) :
    ¬ Spliced (padLines written replacement) ∧
      (padLines written replacement).head? = some Byte.openParen ∧
      (padLines written replacement).getLast? ≠ some Byte.backslash := by
  have hpadding (count : Nat) : ¬ Spliced (List.replicate count Byte.newline) := by
    intro hsplice
    have hmem : Byte.backslash ∈ List.replicate count Byte.newline :=
      hsplice.subset (by simp)
    exact absurd (List.eq_of_mem_replicate hmem) (by decide)
  unfold padLines
  refine ⟨?_, ?_, ?_⟩
  · rw [spliced_append]
    rintro (hfront | hback | ⟨hbackslash, -⟩)
    · exact hspliced hfront
    · exact hpadding _ hback
    · rw [hlast] at hbackslash
      exact absurd hbackslash (by decide)
  · simp [hhead]
  · rw [List.getLast?_append, hlast, List.getLast?_replicate]
    split <;> decide

/-! ## Calls of a source without splices -/

/-- Operands are spliced only if arguments are. -/
theorem exists_spliced_argument {arguments : List Bytes}
    (hall : ∀ argument ∈ arguments, ∀ line site,
      Spliced (renderPieces site (outline line [] argument)).1 → Spliced argument)
    (line site : Nat) {text : Bytes}
    (htext : text ∈ (renderOperands site (outlineOperands line arguments)).1)
    (hspliced : Spliced text) : ∃ argument ∈ arguments, Spliced argument := by
  induction arguments generalizing line site with
  | nil =>
    rw [outlineOperands] at htext
    cases htext
  | cons argument more ih =>
    rw [outlineOperands, renderOperands] at htext
    rcases List.mem_cons.mp htext with rfl | hmore
    · exact ⟨argument, by simp, hall argument (by simp) _ _ hspliced.of_operandText⟩
    · obtain ⟨other, hother, hsplice⟩ :=
        ih (fun other hother => hall other (by simp [hother])) _ _ hmore
      exact ⟨other, by simp [hother], hsplice⟩

/-- A call whose operands are not spliced carries no line end over, and no splice arises in or
around its replacement. -/
theorem Rewriting.shape (call : Rewriting) (htexts : ∀ text ∈ call.texts, ¬ Spliced text) :
    call.carriedLines = 0 ∧ ¬ Spliced call.text ∧ call.text.head? = some Byte.openParen ∧
      call.text.getLast? ≠ some Byte.backslash := by
  have hpointer : ¬ Spliced (callOperands call.texts).pointer := by
    cases hcase : call.texts with
    | nil => exact not_spliced_nil
    | cons pointer values => exact htexts pointer (by simp [hcase])
  have hone : newlines (callOperands call.texts).pointerType = 0 := newlines_onOneLine hpointer
  constructor
  · unfold carriedLines
    split
    · exact hone
    · rfl
  · obtain ⟨hspliced, hhead, hlast⟩ := program_shape call.builtin
      (renderOperands call.site call.operands).2 hpointer (not_spliced_of_newlines hone)
      (fun value hvalue => htexts value (List.mem_of_mem_tail hvalue)) rfl
    rw [call.text_eq]
    exact padLines_shape hspliced hhead hlast

/-- In a text without splices no call carries line ends over. -/
theorem carriedLines_of_not_spliced (line : Nat) (before text : Bytes) :
    ¬ Spliced text → ∀ site,
      KeepsApart (renderPieces site (outline line before text)).1 text ∧
        ∀ call ∈ rewritings site (outline line before text), call.carriedLines = 0 := by
  induction line, before, text using outline_induction with
  | nil line before =>
    intro _ site
    rw [outline]
    exact ⟨⟨id, id⟩, fun call hcall => absurd hcall List.not_mem_nil⟩
  | copied hnext hopening ih =>
    intro hspliced site
    rw [← append_of_nextLexeme hnext] at hspliced
    obtain ⟨hapart, hcarried⟩ := ih (not_spliced_of_append hspliced) site
    rw [outline_copied hnext hopening, ← append_of_nextLexeme hnext]
    exact ⟨hapart.append _, hcarried⟩
  | kept hnext hopening hjudge ih =>
    intro hspliced site
    rw [← append_of_nextLexeme hnext] at hspliced
    obtain ⟨hapart, hcarried⟩ := ih (not_spliced_of_append hspliced) site
    rw [outline_kept hnext hopening hjudge, ← append_of_nextLexeme hnext]
    obtain ⟨rfl, -, -⟩ := opening?_eq_some.mp hopening
    exact ⟨hapart.append _, hcarried⟩
  | @expanded line before b rest lexeme behind builtin gap inner list hnext hopening hjudge
      hargument ih =>
    intro hspliced site
    have hwhole := append_callTail hnext hopening hjudge
    rw [← hwhole] at hspliced
    let call : Rewriting := ⟨site, builtin, gap, list,
      outlineOperands (line + newlines gap) (list.arguments.take builtin.operandCount)⟩
    have hwritten : ¬ Spliced call.written :=
      fun hcall => hspliced (hcall.mono (List.prefix_append _ _).isInfix)
    have harguments : ∀ argument ∈ list.arguments.take builtin.operandCount,
        ¬ Spliced argument := by
      intro argument hmem hsplice
      have hinside := infix_of_mem_arguments (List.mem_of_mem_take hmem)
      exact hwritten (hsplice.mono (hinside.trans call.infix_written))
    obtain ⟨hself, htext, hhead, hlast⟩ := call.shape (by
      intro text htext hsplice
      obtain ⟨argument, hmem, hbad⟩ := exists_spliced_argument
        (fun argument hmem line site hrendered =>
          (hargument argument hmem line (harguments argument hmem) site).1.spliced hrendered)
        _ _ htext hsplice
      exact harguments argument hmem hbad)
    have hinner := forall_operandRewritings
      (fun argument hmem line site =>
        (hargument argument hmem line (harguments argument hmem) site).2)
      (line + newlines gap) site
    obtain ⟨hapart, hbehind⟩ := ih (not_spliced_of_append hspliced) (call.piece.render site).2
    rw [outline_expanded hnext hopening hjudge, ← hwhole]
    constructor
    · exact hapart.replace call.written call.text (fun hcall => absurd hcall htext) hhead
        (by decide) hlast
    · intro other hother
      rcases List.mem_append.mp hother with hhere | hthere
      · rcases List.mem_append.mp hhere with hin | hsame
        · exact hinner other hin
        · rw [List.mem_singleton.mp hsame]
          exact hself
      · exact hbehind other hthere

/-! ## Normalized sources -/

mutual

/-- The calls of a piece are those that it replaces. -/
theorem Piece.map_rewritings (site : Nat) (piece : Piece) :
    (piece.rewritings site).map Rewriting.builtin = piece.expanded := by
  cases piece with
  | verbatim text => rfl
  | kept builtin line reason => rfl
  | call builtin gap list operands =>
    rw [Piece.rewritings, List.map_append, map_operandRewritings site operands]
    rfl

/-- The calls of an outline are those that it replaces. -/
theorem map_rewritings (site : Nat) (pieces : List Piece) :
    (rewritings site pieces).map Rewriting.builtin = expandedPieces pieces := by
  cases pieces with
  | nil => rfl
  | cons piece more =>
    rw [rewritings, List.map_append, Piece.map_rewritings site piece, map_rewritings _ more]
    rfl

/-- The calls of operands are those that they replace. -/
theorem map_operandRewritings (site : Nat) (operands : List (List Piece)) :
    (operandRewritings site operands).map Rewriting.builtin = expandedOperands operands := by
  cases operands with
  | nil => rfl
  | cons operand more =>
    rw [operandRewritings, List.map_append, map_rewritings site operand,
      map_operandRewritings _ more]
    rfl

end

/-- A piece that is copied as it is written. -/
def Piece.isCopied : Piece → Bool
  | .call _ _ _ _ => false
  | _ => true

/-- The outermost calls are calls of the outline. -/
theorem mem_rewritings_of_outermost {site : Nat} {pieces : List Piece} {call : Rewriting}
    (hcall : call ∈ outermost site pieces) : call ∈ rewritings site pieces := by
  induction pieces generalizing site with
  | nil => cases hcall
  | cons piece more ih =>
    rw [rewritings]
    cases piece with
    | verbatim text => exact List.mem_append_right _ (ih hcall)
    | kept builtin line reason => exact List.mem_append_right _ (ih hcall)
    | call builtin gap list operands =>
      rw [outermost] at hcall
      rcases List.mem_cons.mp hcall with rfl | hmore
      · exact List.mem_append_left _ (by simp [Piece.rewritings])
      · exact List.mem_append_right _ (ih hmore)

/-- A piece is rendered in front of the others. -/
theorem renderPieces_cons (site : Nat) (piece : Piece) (more : List Piece) :
    (renderPieces site (piece :: more)).1 =
      (piece.render site).1 ++ (renderPieces (piece.render site).2 more).1 :=
  rfl

/-- Pieces are rendered one after the other. -/
theorem renderPieces_append (site : Nat) (front back : List Piece) :
    (renderPieces site (front ++ back)).1 =
      (renderPieces site front).1 ++ (renderPieces (renderPieces site front).2 back).1 := by
  induction front generalizing site with
  | nil => rfl
  | cons piece front ih =>
    simp only [List.cons_append, renderPieces, ih, List.append_assoc]

/-- What becomes of the lines of a source. -/
structure LinesKept (site : Nat) (source : Bytes) (normalized : Normalized) : Prop where
  /-- The calls below are those of the report. -/
  reported : (rewritings site (outline 1 [] source)).map Rewriting.builtin =
    normalized.report.expanded
  /-- No replacement has fewer line ends than its call. -/
  padded : ∀ call ∈ rewritings site (outline 1 [] source),
    newlines call.written ≤ newlines call.text
  /-- A replacement has as many just if the call has room for those of its operands and those
  that its pointer carries over. -/
  exact_iff : ∀ call ∈ rewritings site (outline 1 [] source),
    call.Exact ↔ call.carriedLines + call.operandLines ≤ newlines call.written
  /-- There is room if no pointer carries line ends over. -/
  exact_of_carried :
    (∀ call ∈ rewritings site (outline 1 [] source), call.carriedLines = 0) →
      ∀ call ∈ rewritings site (outline 1 [] source), call.Exact
  /-- None does if no backslash stands in front of a line end. -/
  carried_of_not_spliced : ¬ Spliced source →
    ∀ call ∈ rewritings site (outline 1 [] source), call.carriedLines = 0
  outer : ∀ call ∈ outermost site (outline 1 [] source),
    call ∈ rewritings site (outline 1 [] source)
  /-- The outermost calls decide about the lines of the whole text. -/
  total : newlines normalized.text = newlines source ↔
    ∀ call ∈ outermost site (outline 1 [] source), call.Exact
  /-- What is copied stands on its old line if the outermost calls above it are exact. -/
  copied : ∀ front piece back, outline 1 [] source = front ++ piece :: back → piece.isCopied →
    ∃ above below,
      normalized.text = above ++ piece.source ++ below ∧
      source = front.flatMap Piece.source ++ piece.source ++ back.flatMap Piece.source ∧
      (newlines above = newlines (front.flatMap Piece.source) ↔
        ∀ call ∈ outermost site front, call.Exact)

/-- Normalization keeps the lines of a source as far as its replacements are exact. -/
theorem linesKept_normalize (session : Session) (source : Bytes)
    (henabled : session.config.normalizeAtomics = true) :
    LinesKept session.site source (session.normalize source).1 := by
  have htext : (session.normalize source).1.text =
      (renderPieces session.site (outline 1 [] source)).1 := by
    simp only [Session.normalize, henabled, if_true]
  have hreport : (session.normalize source).1.report.expanded =
      expandedPieces (outline 1 [] source) := by
    simp only [Session.normalize, henabled, if_true]
  have hsource := source_outline 1 [] source
  constructor
  · rw [hreport]
    exact map_rewritings session.site _
  · intro call _
    exact call.newlines_written_le
  · intro call hcall
    exact call.exact_iff (length_texts 1 [] source session.site call hcall)
  · intro hcarried
    exact (exact_of_carriedLines 1 [] source session.site hcarried).1
  · intro hspliced
    exact (carriedLines_of_not_spliced 1 [] source hspliced session.site).2
  · intro call hcall
    exact mem_rewritings_of_outermost hcall
  · have htotal := newlines_renderPieces_eq_iff session.site (outline 1 [] source)
    rw [hsource] at htotal
    rw [htext, htotal]
  · intro front piece back hpieces hcopied
    have hrender : (piece.render (renderPieces session.site front).2).1 = piece.source := by
      cases piece with
      | verbatim text => rfl
      | kept builtin line reason => rfl
      | call builtin gap list operands => cases hcopied
    refine ⟨(renderPieces session.site front).1,
      (renderPieces (piece.render (renderPieces session.site front).2).2 back).1, ?_, ?_,
      newlines_renderPieces_eq_iff session.site front⟩
    · rw [htext, hpieces, renderPieces_append, renderPieces_cons, hrender, List.append_assoc]
    · rw [hpieces, List.flatMap_append, List.flatMap_cons] at hsource
      rw [List.append_assoc]
      exact hsource.symm

/-- A call that is spread over four lines. -/
theorem linesKept_spread_call :
    LinesKept 7 (Bytes.ofString "y =\n__sync_add_and_fetch(\n  &x,\n  2\n);\nz")
      (Session.normalize { config := {}, site := 7 }
        (Bytes.ofString "y =\n__sync_add_and_fetch(\n  &x,\n  2\n);\nz")).1 :=
  linesKept_normalize { config := {}, site := 7 } _ rfl

/-- A call whose pointer has a string literal that is continued on a second line. -/
def continuedLiteral : Bytes := Bytes.ofString "__sync_fetch_and_add(f(\"a\\\nb\"), 1)"

/-- The literal is written out twice, and each time it has a line end. -/
theorem lines_of_continuedLiteral :
    ¬ (∀ call ∈ rewritings 0 (outline 1 [] continuedLiteral), call.Exact) ∧
      newlines continuedLiteral = 1 ∧
      newlines (normalize {} continuedLiteral).text = 2 := by
  decide +kernel

end PlainSync.Source
