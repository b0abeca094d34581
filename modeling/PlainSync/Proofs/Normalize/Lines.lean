import Mathlib.Algebra.GroupWithZero.Nat
import PlainSync.Proofs.Expansion.Reading
import PlainSync.Proofs.Source.Blanking

/-!
# Line ends of a normalized source

A replacement is padded up to the line ends of the call it stands for, so it never has fewer.
It has more only if its pointer is declared: the type of the declaration repeats the pointer,
and a literal that is continued on another line keeps its line end there.
-/

namespace PlainSync.Source

open Bytes Reading

/-! ## Line ends of an expansion -/

/-- The bytes of two strings one behind the other. -/
theorem ofString_append (a b : String) : ofString (a ++ b) = ofString a ++ ofString b := by
  simp [ofString]

/-- A digit is written as a digit. -/
theorem isDigit_of_mem_digitChar {n : Nat} (hn : n < 10) :
    ∀ b ∈ ofString (.singleton n.digitChar), Byte.isDigit b := by
  have hall : ∀ n < 10, (ofString (.singleton (Nat.digitChar n))).all Byte.isDigit := by decide
  exact List.all_eq_true.mp (hall n hn)

/-- A decimal numeral is made of digits. -/
theorem isDigit_of_mem_numeral (n : Nat) : ∀ b ∈ ofString (toString n), Byte.isDigit b := by
  rw [Nat.toString_eq_repr]
  by_cases hn : n < 10
  · rw [Nat.repr_of_lt hn]
    exact isDigit_of_mem_digitChar hn
  · have hfront := isDigit_of_mem_numeral (n / 10)
    rw [Nat.toString_eq_repr] at hfront
    rw [Nat.repr_of_ge (by omega), ofString_append]
    intro b hb
    rcases List.mem_append.mp hb with hb | hb
    · exact hfront b hb
    · exact isDigit_of_mem_digitChar (Nat.mod_lt n (by decide)) b hb

/-- A number is on one line. -/
theorem newlines_numeral (n : Nat) : newlines (ofString (toString n)) = 0 :=
  newlines_eq_zero_of_all (by decide) (isDigit_of_mem_numeral n)

/-- The name of a temporary stands on one line. -/
theorem newlines_numbered (site : Nat) :
    newlines (Temporaries.numbered site).pointer = 0 ∧
      newlines (Temporaries.numbered site).saved = 0 := by
  simp only [Temporaries.numbered, ofString_append, newlines_append, newlines_numeral]
  decide

/-- The expansion of a built-in declares a temporary for the pointer. -/
def declaresPointer (builtin : Builtin) : Bool :=
  match Expansion.program builtin with
  | .block _ _ => true
  | _ => false

/-- The places of operands in a template, from left to right. -/
def operandSlots (symbols : List Symbol) : List Slot :=
  symbols.filterMap fun symbol =>
    match symbol with
    | .byte _ | .slot .pointerName | .slot .savedName => none
    | .slot place => some place

/-- An expansion has each operand once, in their order. In front of them stands the pointer's
type if the pointer is declared. -/
theorem operandSlots_template (builtin : Builtin) :
    operandSlots (template builtin) =
      (if declaresPointer builtin then [Slot.pointerType] else []) ++
        [Slot.pointer, .value 0, .value 1].take builtin.operandCount := by
  cases builtin with
  | fetchAndOp update | opAndFetch update => cases update <;> decide +kernel
  | _ => decide +kernel

/-- No expansion has a line end of its own. -/
theorem newline_not_mem_template (builtin : Builtin) :
    Symbol.byte Byte.newline ∉ template builtin := by
  cases builtin with
  | fetchAndOp update | opAndFetch update => cases update <;> decide +kernel
  | _ => decide +kernel

/-- A filled template has the line ends of its operands. -/
theorem newlines_fill (operands : Operands) {names : Temporaries} {symbols : List Symbol}
    (hpointer : newlines names.pointer = 0) (hsaved : newlines names.saved = 0)
    (hsymbols : Symbol.byte Byte.newline ∉ symbols) :
    newlines (fill operands names symbols) =
      ((operandSlots symbols).map fun place => newlines (place.text operands names)).sum := by
  induction symbols with
  | nil => rfl
  | cons symbol symbols ih =>
    rw [List.mem_cons, not_or] at hsymbols
    obtain ⟨hsymbol, hrest⟩ := hsymbols
    have hfill : fill operands names (symbol :: symbols) =
        symbol.text operands names ++ fill operands names symbols := rfl
    rw [hfill, newlines_append, ih hrest]
    cases symbol with
    | byte b =>
      have hb : newlines [b] = 0 := newlines_cons_of_ne (fun hb => hsymbol (by rw [hb])) []
      simp [operandSlots, Symbol.text, hb]
    | slot place =>
      cases place <;> simp [operandSlots, Symbol.text, Slot.text, hpointer, hsaved]

/-- An expansion has the line ends of its operands, and those of the pointer on one line where
its type is taken. -/
theorem newlines_program (builtin : Builtin) {texts : List Bytes} (site : Nat)
    (htexts : texts.length = builtin.operandCount) :
    newlines ((Expansion.program builtin).text (callOperands texts) (.numbered site)) =
      (if declaresPointer builtin then newlines (callOperands texts).pointerType else 0) +
        (texts.map newlines).sum := by
  obtain ⟨hpointer, hsaved⟩ := newlines_numbered site
  rw [← fill_template, newlines_fill _ hpointer hsaved (newline_not_mem_template builtin),
    operandSlots_template, List.map_append, List.sum_append, ← htexts]
  congr 1
  · split <;> rfl
  · have hcount : texts.length ≤ 3 := by rw [htexts]; cases builtin <;> simp [Builtin.operandCount]
    match texts with
    | [] | [_] | [_, _] | [_, _, _] => simp [Slot.text, callOperands]

/-! ## Calls that are rewritten -/

/-- A call that is rewritten: a call of an outline, and the site number that is free in front
of it. -/
structure Rewriting where
  site : Nat
  builtin : Builtin
  gap : Bytes
  list : ArgumentList
  operands : List (List Piece)

namespace Rewriting

variable (call : Rewriting)

/-- The call as a piece of its outline. -/
def piece : Piece := .call call.builtin call.gap call.list call.operands

/-- The call as it is written. -/
def written : Bytes := call.piece.source

/-- The text that replaces the call. -/
def text : Bytes := (call.piece.render call.site).1

/-- The texts of the operands, inner calls replaced. -/
def texts : List Bytes := (renderOperands call.site call.operands).1

/-- The line ends of the operands. -/
def operandLines : Nat := (call.texts.map newlines).sum

/-- The line ends that the pointer still has where its type is taken. -/
def carriedLines : Nat :=
  if declaresPointer call.builtin then newlines (callOperands call.texts).pointerType else 0

/-- The replacement has the line ends of the call. -/
def Exact : Prop := newlines call.text = newlines call.written

instance : Decidable call.Exact :=
  inferInstanceAs (Decidable (newlines call.text = newlines call.written))

end Rewriting

mutual

/-- The calls of a piece that are rewritten, in the order of their sites, the next free site
number being `site`. -/
def Piece.rewritings (site : Nat) : Piece → List Rewriting
  | .verbatim _ => []
  | .kept _ _ _ => []
  | .call builtin gap list operands =>
    operandRewritings site operands ++ [⟨site, builtin, gap, list, operands⟩]

/-- The calls of an outline that are rewritten, likewise. -/
def rewritings (site : Nat) : List Piece → List Rewriting
  | [] => []
  | piece :: more => piece.rewritings site ++ rewritings (piece.render site).2 more

/-- The calls among the operands of a call that are rewritten, likewise. -/
def operandRewritings (site : Nat) : List (List Piece) → List Rewriting
  | [] => []
  | operand :: more =>
    rewritings site operand ++ operandRewritings (renderPieces site operand).2 more

end

/-- The calls of an outline that are rewritten and stand in no other such call. -/
def outermost (site : Nat) : List Piece → List Rewriting
  | [] => []
  | .call builtin gap list operands :: more =>
    ⟨site, builtin, gap, list, operands⟩ ::
      outermost ((Piece.call builtin gap list operands).render site).2 more
  | _ :: more => outermost site more

/-- Padding adds the lines that are missing. -/
theorem newlines_padLines (written replacement : Bytes) :
    newlines (padLines written replacement) = max (newlines written) (newlines replacement) := by
  have hpadding (count : Nat) : newlines (List.replicate count Byte.newline) = count :=
    List.count_replicate_self
  rw [padLines, newlines_append, hpadding]
  omega

/-- The replacement of a call is its expansion, padded. -/
theorem Rewriting.text_eq (call : Rewriting) :
    call.text = padLines call.written ((Expansion.program call.builtin).text
      (callOperands call.texts) (.numbered (renderOperands call.site call.operands).2)) :=
  rfl

/-- A replacement has the line ends that the call or its expansion has, whichever are more. -/
theorem Rewriting.newlines_text (call : Rewriting)
    (htexts : call.texts.length = call.builtin.operandCount) :
    newlines call.text = max (newlines call.written) (call.carriedLines + call.operandLines) := by
  rw [call.text_eq, newlines_padLines, newlines_program _ _ htexts]
  rfl

/-- A replacement has no fewer line ends than the call. -/
theorem Rewriting.newlines_written_le (call : Rewriting) :
    newlines call.written ≤ newlines call.text := by
  rw [call.text_eq, newlines_padLines]
  exact Nat.le_max_left _ _

/-- A replacement has too many line ends just if those of the operands and those that are
carried over do not fit into the call. -/
theorem Rewriting.exact_iff (call : Rewriting)
    (htexts : call.texts.length = call.builtin.operandCount) :
    call.Exact ↔ call.carriedLines + call.operandLines ≤ newlines call.written := by
  unfold Rewriting.Exact
  rw [call.newlines_text htexts]
  omega

/-- What stands between the parentheses of a call is a part of it. -/
theorem Rewriting.infix_written (call : Rewriting) : call.list.inside <:+: call.written := by
  have hwritten : call.written = call.builtin.spelling ++ call.gap ++ [Byte.openParen] ++
      call.list.inside ++ [Byte.closeParen] := by
    simp [written, piece, Piece.source, callTail]
  exact ⟨_, _, hwritten.symm⟩

/-- A rendered outline has the line ends of its source, and those that the replacements of
its outermost calls have too many. -/
theorem newlines_renderPieces (site : Nat) (pieces : List Piece) :
    newlines (renderPieces site pieces).1 =
      newlines (pieces.flatMap Piece.source) +
        ((outermost site pieces).map fun call =>
          newlines call.text - newlines call.written).sum := by
  induction pieces generalizing site with
  | nil => rfl
  | cons piece more ih =>
    rw [renderPieces, newlines_append, ih, List.flatMap_cons, newlines_append]
    cases piece with
    | verbatim text =>
      simp only [Piece.render, Piece.source, outermost]
      omega
    | kept builtin line reason =>
      simp only [Piece.render, Piece.source, outermost]
      omega
    | call builtin gap list operands =>
      let call : Rewriting := ⟨site, builtin, gap, list, operands⟩
      have hmore := call.newlines_written_le
      rw [outermost, List.map_cons, List.sum_cons]
      change newlines call.text + _ = newlines call.written + _ +
        (newlines call.text - newlines call.written + _)
      omega

/-- A rendered outline has the line ends of its source just if the replacements of its
outermost calls have. -/
theorem newlines_renderPieces_eq_iff (site : Nat) (pieces : List Piece) :
    newlines (renderPieces site pieces).1 = newlines (pieces.flatMap Piece.source) ↔
      ∀ call ∈ outermost site pieces, call.Exact := by
  rw [newlines_renderPieces, Nat.add_eq_left, List.sum_eq_zero_iff_forall_eq_nat]
  constructor
  · intro hzero call hcall
    have hless := hzero _ (List.mem_map_of_mem hcall)
    have hmore := call.newlines_written_le
    unfold Rewriting.Exact
    omega
  · intro hexact surplus hsurplus
    obtain ⟨call, hcall, rfl⟩ := List.mem_map.mp hsurplus
    have heq : newlines call.text = newlines call.written := hexact call hcall
    omega

/-! ## Calls of a source -/

/-- Every operand is rendered. -/
theorem length_renderOperands (site : Nat) (operands : List (List Piece)) :
    (renderOperands site operands).1.length = operands.length := by
  induction operands generalizing site with
  | nil => rfl
  | cons operand more ih => rw [renderOperands, List.length_cons, ih, List.length_cons]

/-- The arguments of a call have no more line ends than what stands between its parentheses. -/
theorem newlines_arguments_le (list : ArgumentList) (count : Nat) :
    ((list.arguments.take count).map newlines).sum ≤ newlines list.inside := by
  have hmore (stretches : List Bytes) :
      newlines (stretches.flatMap (Byte.comma :: ·)) = (stretches.map newlines).sum := by
    induction stretches with
    | nil => rfl
    | cons stretch stretches ih =>
      rw [List.flatMap_cons, newlines_append, newlines_cons_of_ne (by decide), ih,
        List.map_cons, List.sum_cons]
  have htake (arguments : List Bytes) :
      ((arguments.take count).map newlines).sum ≤ (arguments.map newlines).sum := by
    have hwhole := congrArg (fun list : List Bytes => (list.map newlines).sum)
      (List.take_append_drop count arguments)
    simp only [List.map_append, List.sum_append] at hwhole
    omega
  rw [ArgumentList.inside, newlines_append, hmore]
  refine Nat.le_trans (htake _) ?_
  unfold ArgumentList.arguments
  split
  · exact Nat.zero_le _
  · exact Nat.le_refl _

/-- What holds of the operands of every call holds of the calls among operands. -/
theorem forall_operandRewritings {p : Rewriting → Prop} {arguments : List Bytes}
    (hall : ∀ argument ∈ arguments, ∀ line site,
      ∀ call ∈ rewritings site (outline line [] argument), p call) (line site : Nat) :
    ∀ call ∈ operandRewritings site (outlineOperands line arguments), p call := by
  induction arguments generalizing line site with
  | nil => rw [outlineOperands]; simp [operandRewritings]
  | cons argument more ih =>
    rw [outlineOperands, operandRewritings]
    intro call hcall
    rcases List.mem_append.mp hcall with hfirst | hmore
    · exact hall argument (by simp) _ _ call hfirst
    · exact ih (fun other hother => hall other (by simp [hother])) _ _ call hmore

/-- What holds of every call with a verdict holds of all calls that are rewritten. -/
theorem forall_rewritings {p : Rewriting → Prop}
    (hcall : ∀ {builtin line before inner list}, judge builtin line before inner = .ok list →
      ∀ site gap line', p ⟨site, builtin, gap, list,
        outlineOperands line' (list.arguments.take builtin.operandCount)⟩)
    (line : Nat) (before text : Bytes) :
    ∀ site, ∀ call ∈ rewritings site (outline line before text), p call := by
  induction line, before, text using outline_induction with
  | nil line before =>
    intro site call hmem
    rw [outline] at hmem
    cases hmem
  | copied hnext hopening ih =>
    intro site call hmem
    rw [outline_copied hnext hopening] at hmem
    exact ih site call hmem
  | kept hnext hopening hjudge ih =>
    intro site call hmem
    rw [outline_kept hnext hopening hjudge] at hmem
    exact ih site call hmem
  | expanded hnext hopening hjudge hargument ih =>
    intro site call hmem
    rw [outline_expanded hnext hopening hjudge, rewritings, Piece.rewritings] at hmem
    rcases List.mem_append.mp hmem with hhere | hbehind
    · rcases List.mem_append.mp hhere with hinner | hself
      · exact forall_operandRewritings hargument _ _ call hinner
      · rw [List.mem_singleton] at hself
        subst hself
        exact hcall hjudge site _ _
    · exact ih _ call hbehind

/-- Every call that is rewritten has the operands it needs. -/
theorem length_texts (line : Nat) (before text : Bytes) :
    ∀ site, ∀ call ∈ rewritings site (outline line before text),
      call.texts.length = call.builtin.operandCount := by
  refine forall_rewritings (fun hjudge site gap line' => ?_) line before text
  rw [Rewriting.texts, length_renderOperands, length_outlineOperands, List.length_take]
  exact Nat.min_eq_left (operandCount_le_of_judge hjudge)

/-- If no call of an operand carries line ends over, the operands of a call have no more line
ends than its arguments. -/
theorem exact_operands {arguments : List Bytes}
    (hall : ∀ argument ∈ arguments, ∀ line site,
      (∀ call ∈ rewritings site (outline line [] argument), call.carriedLines = 0) →
        (∀ call ∈ rewritings site (outline line [] argument), call.Exact) ∧
          newlines (renderPieces site (outline line [] argument)).1 = newlines argument)
    (line site : Nat)
    (hcarried : ∀ call ∈ operandRewritings site (outlineOperands line arguments),
      call.carriedLines = 0) :
    (∀ call ∈ operandRewritings site (outlineOperands line arguments), call.Exact) ∧
      ((renderOperands site (outlineOperands line arguments)).1.map newlines).sum ≤
        (arguments.map newlines).sum := by
  induction arguments generalizing line site with
  | nil => rw [outlineOperands]; simp [operandRewritings, renderOperands]
  | cons argument more ih =>
    rw [outlineOperands, operandRewritings] at hcarried ⊢
    obtain ⟨hhere, hlines⟩ := hall argument (by simp) line site
      fun call hcall => hcarried call (List.mem_append_left _ hcall)
    obtain ⟨hthere, hsum⟩ := ih (fun other hother => hall other (by simp [hother])) _ _
      fun call hcall => hcarried call (List.mem_append_right _ hcall)
    constructor
    · intro call hcall
      rcases List.mem_append.mp hcall with hfirst | hmore
      · exact hhere call hfirst
      · exact hthere call hmore
    · have htext := newlines_operandText_le (renderPieces site (outline line [] argument)).1
      rw [renderOperands, List.map_cons, List.map_cons, List.sum_cons, List.sum_cons]
      omega

/-- If no call carries line ends over, every replacement has the line ends of its call, and the
rendered outline those of its text. -/
theorem exact_of_carriedLines (line : Nat) (before text : Bytes) :
    ∀ site, (∀ call ∈ rewritings site (outline line before text), call.carriedLines = 0) →
      (∀ call ∈ rewritings site (outline line before text), call.Exact) ∧
        newlines (renderPieces site (outline line before text)).1 = newlines text := by
  induction line, before, text using outline_induction with
  | nil line before =>
    intro site _
    rw [outline]
    exact ⟨fun call hcall => absurd hcall List.not_mem_nil, rfl⟩
  | copied hnext hopening ih =>
    intro site hcarried
    rw [outline_copied hnext hopening] at hcarried ⊢
    obtain ⟨hexact, hlines⟩ := ih site hcarried
    refine ⟨hexact, ?_⟩
    rw [renderPieces, newlines_append, Piece.render, hlines, ← newlines_append,
      append_of_nextLexeme hnext]
  | kept hnext hopening hjudge ih =>
    intro site hcarried
    rw [outline_kept hnext hopening hjudge] at hcarried ⊢
    obtain ⟨hexact, hlines⟩ := ih site hcarried
    refine ⟨hexact, ?_⟩
    obtain ⟨rfl, -, -⟩ := opening?_eq_some.mp hopening
    rw [renderPieces, newlines_append, Piece.render, hlines, ← newlines_append]
    exact congrArg newlines (append_of_nextLexeme hnext)
  | @expanded line before b rest lexeme behind builtin gap inner list hnext hopening hjudge
      hargument ih =>
    intro site hcarried
    have hcount := length_texts line before (b :: rest) site
    rw [outline_expanded hnext hopening hjudge] at hcarried hcount ⊢
    rw [rewritings, Piece.rewritings] at hcarried hcount ⊢
    generalize hoperands : outlineOperands (line + newlines gap)
      (list.arguments.take builtin.operandCount) = operands at *
    let call : Rewriting := ⟨site, builtin, gap, list, operands⟩
    have hcall : call ∈ operandRewritings site operands ++ [call] := by simp
    obtain ⟨hinner, hsum⟩ := exact_operands hargument (line + newlines gap) site
      (by rw [hoperands]; intro call hcall; exact hcarried call (by simp [hcall]))
    rw [hoperands] at hinner hsum
    have hself : call.Exact := by
      rw [call.exact_iff (hcount call (List.mem_append_left _ hcall)),
        hcarried call (List.mem_append_left _ hcall), Nat.zero_add]
      calc call.operandLines
        _ ≤ ((list.arguments.take builtin.operandCount).map newlines).sum := hsum
        _ ≤ newlines list.inside := newlines_arguments_le list builtin.operandCount
        _ ≤ newlines call.written := newlines_infix_le call.infix_written
    obtain ⟨hbehind, hlines⟩ := ih _ fun call hcall => hcarried call (List.mem_append_right _ hcall)
    constructor
    · intro other hother
      rcases List.mem_append.mp hother with hhere | hthere
      · rcases List.mem_append.mp hhere with hin | hsame
        · exact hinner other hin
        · rw [List.mem_singleton.mp hsame]
          exact hself
      · exact hbehind other hthere
    · rw [renderPieces, newlines_append, hlines]
      change newlines call.text + _ = _
      rw [hself, ← newlines_append]
      exact congrArg newlines (append_callTail hnext hopening hjudge)

end PlainSync.Source
