import PlainSync.Proofs.Normalize.Fragments

/-!
# Sites of a session

What a session has normalized before shifts the numbers in the names that a source's expansions
declare. It changes nothing else.
-/

namespace PlainSync.Source

open Bytes Reading

/-- What a symbol of a template is filled with. -/
def symbolFragments (operands : List (List Fragment)) (pointerType : List Fragment)
    (offset : Nat) : Symbol → List Fragment
  | .byte b => [.byte b]
  | .slot .pointer => operands.head?.getD []
  | .slot .pointerType => pointerType
  | .slot (.value index) => operands.tail[index]?.getD []
  | .slot .pointerName => [.name .pointer offset]
  | .slot .savedName => [.name .saved offset]

/-- A call is replaced alike at all sites if its operands are alike. -/
theorem exists_callText_textAt (builtin : Builtin) (gap : Bytes) (list : ArgumentList)
    (operands : List (List Fragment)) (offset : Nat) :
    ∃ fragments, ∀ site, callText builtin gap list (operands.map (textAt site)) (site + offset) =
      textAt site fragments := by
  obtain ⟨pointerType, hpointerType⟩ := exists_onOneLine_textAt (operands.head?.getD [])
  let filled := (template builtin).flatMap (symbolFragments operands pointerType offset)
  let written := builtin.spelling ++ callTail gap list
  let padding := List.replicate (newlines written - filled.count (.byte Byte.newline)) Byte.newline
  refine ⟨filled ++ padding.map .byte, fun site => ?_⟩
  have hpointer : (callOperands (operands.map (textAt site))).pointer =
      textAt site (operands.head?.getD []) := by
    cases operands <;> rfl
  have hslot (symbol : Symbol) :
      symbol.text (callOperands (operands.map (textAt site))) (.numbered (site + offset)) =
        textAt site (symbolFragments operands pointerType offset symbol) := by
    cases symbol with
    | byte b => rfl
    | slot place =>
      cases place with
      | pointer => exact hpointer
      | pointerType =>
        have hline : (callOperands (operands.map (textAt site))).pointerType =
            onOneLine [] (callOperands (operands.map (textAt site))).pointer := rfl
        rw [hpointer, hpointerType] at hline
        exact hline
      | value index =>
        simp only [Symbol.text, Slot.text, callOperands, symbolFragments, ← List.map_tail,
          List.getElem?_map]
        cases operands.tail[index]? <;> rfl
      | pointerName => exact (List.append_nil _).symm
      | savedName => exact (List.append_nil _).symm
  have hfill : (Expansion.program builtin).text (callOperands (operands.map (textAt site)))
      (.numbered (site + offset)) = textAt site filled := by
    rw [← fill_template, fill, textAt, List.flatMap_assoc]
    exact congrArg (fun text => (template builtin).flatMap text) (funext hslot)
  rw [callText, hfill, padLines, newlines_textAt, textAt_append, textAt_map_byte]

mutual

/-- A piece is rendered alike at all sites. -/
theorem Piece.exists_render_textAt (piece : Piece) :
    ∃ fragments, ∀ site,
      piece.render site = (textAt site fragments, site + piece.expanded.length) := by
  cases piece with
  | verbatim text => exact ⟨text.map .byte, fun site => by rw [textAt_map_byte]; rfl⟩
  | kept builtin line reason =>
    exact ⟨builtin.spelling.map .byte, fun site => by rw [textAt_map_byte]; rfl⟩
  | call builtin gap list operands =>
    obtain ⟨texts, htexts⟩ := exists_renderOperands_textAt operands
    obtain ⟨fragments, hcall⟩ := exists_callText_textAt builtin gap list texts
      (expandedOperands operands).length
    refine ⟨fragments, fun site => ?_⟩
    rw [Piece.render, htexts, Piece.expanded, List.length_append]
    exact congrArg (·, _) (hcall site)

/-- An outline is rendered alike at all sites. -/
theorem exists_renderPieces_textAt (pieces : List Piece) :
    ∃ fragments, ∀ site,
      renderPieces site pieces =
        (textAt site fragments, site + (expandedPieces pieces).length) := by
  cases pieces with
  | nil => exact ⟨[], fun site => rfl⟩
  | cons piece more =>
    obtain ⟨front, hfront⟩ := Piece.exists_render_textAt piece
    obtain ⟨back, hback⟩ := exists_renderPieces_textAt more
    refine ⟨front ++ back.map (Fragment.delay piece.expanded.length), fun site => ?_⟩
    simp only [renderPieces, hfront, hback, textAt_append, textAt_add, expandedPieces,
      List.length_append, Nat.add_assoc]

/-- Operands are rendered alike at all sites. -/
theorem exists_renderOperands_textAt (operands : List (List Piece)) :
    ∃ texts, ∀ site, renderOperands site operands =
      (List.map (textAt site) texts, site + (expandedOperands operands).length) := by
  cases operands with
  | nil => exact ⟨[], fun site => rfl⟩
  | cons operand more =>
    obtain ⟨rendered, hrendered⟩ := exists_renderPieces_textAt operand
    obtain ⟨first, hfirst⟩ := exists_operandText_textAt rendered
    obtain ⟨others, hothers⟩ := exists_renderOperands_textAt more
    refine ⟨first :: others.map (List.map (Fragment.delay (expandedPieces operand).length)),
      fun site => ?_⟩
    have hlater (texts : List (List Fragment)) (count : Nat) :
        texts.map (textAt (site + count)) =
          (texts.map (List.map (Fragment.delay count))).map (textAt site) := by
      rw [List.map_map]
      exact List.map_congr_left fun text _ => textAt_add site count text
    simp only [renderOperands, hrendered, hothers, hfirst, hlater, expandedOperands,
      List.length_append, Nat.add_assoc, List.map_cons]

end

/-- The report of a source, the number of sites it takes and its text as fragments are the same
for all sessions of one configuration. The names in the text count from the first site that is
free. -/
theorem exists_normalize_textAt (config : Config) (source : Bytes) :
    ∃ report fragments, ∀ site, Session.normalize ⟨config, site⟩ source =
      (⟨textAt site fragments, report⟩, ⟨config, site + report.total⟩) := by
  cases henabled : config.normalizeAtomics with
  | false =>
    refine ⟨{ passthrough := true }, source.map .byte, fun site => ?_⟩
    simp only [Session.normalize, henabled, textAt_map_byte]
    rfl
  | true =>
    obtain ⟨fragments, hrender⟩ := exists_renderPieces_textAt (outline 1 [] source)
    refine ⟨{ expanded := expandedPieces (outline 1 [] source)
              kept := keptInPieces (outline 1 [] source) }, fragments, fun site => ?_⟩
    simp only [Session.normalize, henabled, if_true, hrender]
    rfl

end PlainSync.Source
