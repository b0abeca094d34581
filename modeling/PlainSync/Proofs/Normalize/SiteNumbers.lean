import PlainSync.Proofs.Normalize.LineNumbers
import PlainSync.Proofs.Normalize.ShiftedSites

/-!
# Numbers of sites

The calls that a session rewrites are numbered one after the other, inner calls in front of the
calls around them.
-/

namespace PlainSync.Source

open Bytes Reading

namespace Rewriting

variable (call : Rewriting)

/-- The number of a call's site: the one that is free behind the calls among its operands. -/
def number : Nat := (renderOperands call.site call.operands).2

/-- The texts of operands in the expansion of a call. -/
def operandTexts : List Bytes :=
  (callOperands call.texts).pointer :: (callOperands call.texts).pointerType ::
    (callOperands call.texts).values

/-- A call is replaced by the expansion that declares the temporaries of its number. -/
theorem text_eq_numbered :
    call.text = padLines call.written ((Expansion.program call.builtin).text
      (callOperands call.texts) (.numbered call.number)) :=
  call.text_eq

end Rewriting

/-- A piece takes a number for each call that it replaces. -/
theorem Piece.snd_render (site : Nat) (piece : Piece) :
    (piece.render site).2 = site + piece.expanded.length := by
  obtain ⟨_, hrender⟩ := piece.exists_render_textAt
  rw [hrender]

/-- An outline takes a number for each call that it replaces. -/
theorem snd_renderPieces (site : Nat) (pieces : List Piece) :
    (renderPieces site pieces).2 = site + (expandedPieces pieces).length := by
  obtain ⟨_, hrender⟩ := exists_renderPieces_textAt pieces
  rw [hrender]

/-- Operands take a number for each call that they replace. -/
theorem snd_renderOperands (site : Nat) (operands : List (List Piece)) :
    (renderOperands site operands).2 = site + (expandedOperands operands).length := by
  obtain ⟨_, hrender⟩ := exists_renderOperands_textAt operands
  rw [hrender]

mutual

/-- The calls of a piece have the numbers that it takes. -/
theorem Piece.map_number_rewritings (site : Nat) (piece : Piece) :
    (piece.rewritings site).map Rewriting.number = List.range' site piece.expanded.length := by
  cases piece with
  | verbatim text => rfl
  | kept builtin line reason => rfl
  | call builtin gap list operands =>
    have hself : Rewriting.number ⟨site, builtin, gap, list, operands⟩ =
        site + (expandedOperands operands).length := snd_renderOperands site operands
    rw [Piece.rewritings, List.map_append, map_number_operandRewritings site operands,
      List.map_singleton, hself, Piece.expanded, List.length_append, List.length_singleton,
      List.range'_1_concat]

/-- The calls of an outline are numbered one after the other. -/
theorem map_number_rewritings (site : Nat) (pieces : List Piece) :
    (rewritings site pieces).map Rewriting.number =
      List.range' site (expandedPieces pieces).length := by
  cases pieces with
  | nil => rfl
  | cons piece more =>
    rw [rewritings, List.map_append, Piece.map_number_rewritings site piece,
      map_number_rewritings _ more, Piece.snd_render, List.range'_append_1, expandedPieces,
      List.length_append]

/-- The calls of operands have the numbers that they take. -/
theorem map_number_operandRewritings (site : Nat) (operands : List (List Piece)) :
    (operandRewritings site operands).map Rewriting.number =
      List.range' site (expandedOperands operands).length := by
  cases operands with
  | nil => rfl
  | cons operand more =>
    rw [operandRewritings, List.map_append, map_number_rewritings site operand,
      map_number_operandRewritings _ more, snd_renderPieces, List.range'_append_1,
      expandedOperands, List.length_append]

end

/-- A call among the operands of another has a smaller number. -/
theorem number_lt_of_mem_operands {call inner : Rewriting}
    (hinner : inner ∈ operandRewritings call.site call.operands) : inner.number < call.number := by
  have hnumber := List.mem_map_of_mem (f := Rewriting.number) hinner
  rw [map_number_operandRewritings, List.mem_range'_1] at hnumber
  have hcall : call.number = call.site + (expandedOperands call.operands).length :=
    snd_renderOperands call.site call.operands
  rw [hcall]
  exact hnumber.2

mutual

/-- The calls among the operands of a call are calls of the piece. -/
theorem Piece.mem_rewritings_of_operands {site : Nat} {piece : Piece} {call inner : Rewriting}
    (hcall : call ∈ piece.rewritings site)
    (hinner : inner ∈ operandRewritings call.site call.operands) :
    inner ∈ piece.rewritings site := by
  match piece with
  | .verbatim text => cases hcall
  | .kept builtin line reason => cases hcall
  | .call builtin gap list operands =>
    rw [Piece.rewritings] at hcall ⊢
    rcases List.mem_append.mp hcall with hamong | hself
    · exact List.mem_append_left _ (mem_operandRewritings_of_operands hamong hinner)
    · rw [List.mem_singleton] at hself
      subst hself
      exact List.mem_append_left _ hinner

/-- The calls among the operands of a call are calls of the same outline. -/
theorem mem_rewritings_of_operands {site : Nat} {pieces : List Piece} {call inner : Rewriting}
    (hcall : call ∈ rewritings site pieces)
    (hinner : inner ∈ operandRewritings call.site call.operands) :
    inner ∈ rewritings site pieces := by
  match pieces with
  | [] => cases hcall
  | piece :: more =>
    rw [rewritings] at hcall ⊢
    rcases List.mem_append.mp hcall with hhere | hmore
    · exact List.mem_append_left _ (Piece.mem_rewritings_of_operands hhere hinner)
    · exact List.mem_append_right _ (mem_rewritings_of_operands hmore hinner)

/-- The calls among the operands of a call are calls of the operands around it. -/
theorem mem_operandRewritings_of_operands {site : Nat} {operands : List (List Piece)}
    {call inner : Rewriting} (hcall : call ∈ operandRewritings site operands)
    (hinner : inner ∈ operandRewritings call.site call.operands) :
    inner ∈ operandRewritings site operands := by
  match operands with
  | [] => cases hcall
  | operand :: more =>
    rw [operandRewritings] at hcall ⊢
    rcases List.mem_append.mp hcall with hhere | hmore
    · exact List.mem_append_left _ (mem_rewritings_of_operands hhere hinner)
    · exact List.mem_append_right _ (mem_operandRewritings_of_operands hmore hinner)

end

/-! ## Calls in a text -/

/-- A text is a source in which calls are exchanged for their replacements. All that this takes are
listed, each behind those among its operands. -/
inductive Rewrites : List Rewriting → Bytes → Bytes → Prop where
  | copied (text : Bytes) : Rewrites [] text text
  | call {calls : List Rewriting} {source text : Bytes} (front : Bytes) (call : Rewriting)
      (hbehind : Rewrites calls source text) :
      Rewrites (operandRewritings call.site call.operands ++ call :: calls)
        (front ++ (call.written ++ source)) (front ++ (call.text ++ text))

/-- Texts are sources in which calls are exchanged, one after the other. -/
inductive RewritesEach : List Rewriting → List Bytes → List Bytes → Prop where
  | nil : RewritesEach [] [] []
  | cons {calls others : List Rewriting} {source text : Bytes} {sources texts : List Bytes}
      (hfirst : Rewrites calls source text) (hmore : RewritesEach others sources texts) :
      RewritesEach (calls ++ others) (source :: sources) (text :: texts)

/-- What is copied stands in front of the calls. -/
theorem Rewrites.behind {calls : List Rewriting} {source text : Bytes} (front : Bytes)
    (h : Rewrites calls source text) : Rewrites calls (front ++ source) (front ++ text) := by
  cases h with
  | copied => exact .copied (front ++ source)
  | call copied call hbehind =>
    have hcall := Rewrites.call (front ++ copied) call hbehind
    rwa [List.append_assoc, List.append_assoc] at hcall

/-- An outline is rendered by exchanging its calls. -/
theorem rewrites_renderPieces (site : Nat) (pieces : List Piece) :
    Rewrites (rewritings site pieces) (pieces.flatMap Piece.source)
      (renderPieces site pieces).1 := by
  induction pieces generalizing site with
  | nil => exact .copied []
  | cons piece more ih =>
    rw [rewritings, List.flatMap_cons, renderPieces]
    cases piece with
    | verbatim text => exact (ih site).behind text
    | kept builtin line reason => exact (ih site).behind builtin.spelling
    | call builtin gap list operands =>
      let call : Rewriting := ⟨site, builtin, gap, list, operands⟩
      have hcall := Rewrites.call [] call (ih (call.piece.render site).2)
      rw [Piece.rewritings, List.append_assoc]
      exact hcall

/-- The operands of a call are its arguments in which calls are exchanged, before they are put into
an expansion. -/
def Rewriting.RewritesOperands (call : Rewriting) : Prop :=
  ∃ rendered, call.texts = rendered.map operandText ∧
    RewritesEach (operandRewritings call.site call.operands)
      (call.list.arguments.take call.builtin.operandCount) rendered

/-- Operands are arguments in which calls are exchanged. -/
theorem exists_rewritesEach_operands (arguments : List Bytes) (line site : Nat) :
    ∃ rendered, (renderOperands site (outlineOperands line arguments)).1 =
        rendered.map operandText ∧
      RewritesEach (operandRewritings site (outlineOperands line arguments)) arguments
        rendered := by
  induction arguments generalizing line site with
  | nil =>
    rw [outlineOperands]
    exact ⟨[], rfl, .nil⟩
  | cons argument more ih =>
    rw [outlineOperands]
    obtain ⟨rendered, htexts, hmore⟩ := ih (line + newlines argument)
      (renderPieces site (outline line [] argument)).2
    have hfirst := rewrites_renderPieces site (outline line [] argument)
    rw [source_outline] at hfirst
    refine ⟨(renderPieces site (outline line [] argument)).1 :: rendered, ?_, .cons hfirst hmore⟩
    change operandText _ ::
      (renderOperands _ (outlineOperands (line + newlines argument) more)).1 = _
    rw [htexts, List.map_cons]

/-- The operands of every call of an outline are its arguments with calls exchanged. -/
theorem rewritesOperands_of_mem_rewritings (line : Nat) (before text : Bytes) :
    ∀ site, ∀ call ∈ rewritings site (outline line before text), call.RewritesOperands :=
  forall_rewritings (fun _ _ _ _ => exists_rewritesEach_operands _ _ _) line before text

end PlainSync.Source
