import PlainSync.Normalize
import PlainSync.Proofs.Source.Outline
import PlainSync.Proofs.Normalize.Lines
import PlainSync.Proofs.Source.Plain
import PlainSync.Proofs.Source.Words

/-!
# Replaced calls

The normalized text is the source with some calls exchanged for their expansions: the calls stand
one behind the other, each from the name of its built-in to its closing parenthesis, and every
other byte is copied. What a call is exchanged for follows from its arguments, each normalized
as a source of its own.
-/

namespace PlainSync.Source

open Bytes

/-- A call that is replaced. -/
structure Replacement where
  /-- Where the name of the built-in begins. -/
  position : Nat
  builtin : Builtin
  /-- The white space behind the name. -/
  gap : Bytes
  list : ArgumentList
  /-- The next free site number in front of the call. -/
  site : Nat
  deriving DecidableEq, Repr

namespace Replacement

variable (replacement : Replacement) (config : Config)

/-- The call as it is written. -/
def written : Bytes := replacement.builtin.spelling ++ callTail replacement.gap replacement.list

/-- Where the text behind the call begins. -/
def stop : Nat := replacement.position + replacement.written.length

/-- The arguments that the call needs, normalized one after the other. -/
def operands : List Normalized × Session :=
  Session.normalizeAll ⟨config, replacement.site⟩
    (replacement.list.arguments.take replacement.builtin.operandCount)

/-- The expansion of the call, which takes the first site number that its operands leave free. -/
def expansion? : Option Bytes :=
  expand? replacement.builtin
    (callOperands ((replacement.operands config).1.map fun operand => operandText operand.text))
    (.numbered (replacement.operands config).2.site)

/-- The next free site number behind the call. -/
def nextSite : Nat := (replacement.operands config).2.site + 1

/-- What the call is exchanged for: its expansion, padded with line ends up to those of the
call. -/
def text : Bytes := padLines replacement.written ((replacement.expansion? config).getD [])

/-- The calls that are expanded with it, its own last. -/
def expanded : List Builtin :=
  (replacement.operands config).1.flatMap (·.report.expanded) ++ [replacement.builtin]

/-- The call stands in a source: its name is a whole identifier, and the argument list is the one
that its opening parenthesis opens there. -/
structure Stands (source : Bytes) : Prop where
  before : ∀ b ∈ (source.take replacement.position).getLast?, Byte.continuesIdentifier b = false
  behind : ∀ b ∈ (source.drop (replacement.position + replacement.builtin.spelling.length)).head?,
    Byte.continuesIdentifier b = false
  white : ∀ b ∈ replacement.gap, Byte.isWhiteSpace b
  opened : ∃ inner, source.drop replacement.position =
      replacement.builtin.spelling ++ replacement.gap ++ Byte.openParen :: inner ∧
    splitArguments? 0 inner = some replacement.list

end Replacement

/-- Exchange calls in a text that begins at `offset`. -/
def patch (config : Config) (offset : Nat) (text : Bytes) : List Replacement → Bytes
  | [] => text
  | replacement :: more =>
    text.take (replacement.position - offset) ++ replacement.text config ++
      patch config replacement.stop (text.drop (replacement.stop - offset)) more

/-- The site numbers of the calls go on from one call to the next. -/
def NumberedFrom (config : Config) (site : Nat) : List Replacement → Prop
  | [] => True
  | replacement :: more =>
    replacement.site = site ∧ NumberedFrom config (replacement.nextSite config) more

/-- A text is what stands in a source from `offset` on, with calls exchanged. -/
structure Replaces (config : Config) (source : Bytes) (offset site : Nat) (text : Bytes)
    (expanded : List Builtin) (replacements : List Replacement) : Prop where
  offset_le : ∀ replacement ∈ replacements, offset ≤ replacement.position
  /-- The calls are listed from left to right, and none reaches into the next one. -/
  apart : replacements.Pairwise fun first second =>
    first.position < second.position ∧ first.stop ≤ second.position
  stands : ∀ replacement ∈ replacements, replacement.Stands source
  expands : ∀ replacement ∈ replacements, (replacement.expansion? config).isSome
  numbered : NumberedFrom config site replacements
  text : text = patch config offset (source.drop offset) replacements
  expanded : expanded = replacements.flatMap (·.expanded config)

/-- A replaced call is not empty. -/
theorem Replacement.position_lt_stop (replacement : Replacement) :
    replacement.position < replacement.stop := by
  simp only [Replacement.stop, Replacement.written, callTail, List.length_append, List.length_cons]
  omega

/-- A front without calls is copied. -/
theorem patch_append (config : Config) (offset : Nat) (front text : Bytes)
    {replacements : List Replacement}
    (hbehind : ∀ replacement ∈ replacements, offset + front.length ≤ replacement.position) :
    patch config offset (front ++ text) replacements =
      front ++ patch config (offset + front.length) text replacements := by
  cases replacements with
  | nil => rfl
  | cons replacement more =>
    have hposition := hbehind replacement List.mem_cons_self
    have hstop := replacement.position_lt_stop
    have htake : replacement.position - offset =
        front.length + (replacement.position - (offset + front.length)) := by omega
    have hdrop : replacement.stop - offset =
        front.length + (replacement.stop - (offset + front.length)) := by omega
    rw [patch, patch, htake, hdrop, List.take_length_add_append, List.drop_length_add_append]
    simp only [List.append_assoc]

namespace Replaces

variable {config : Config} {source text : Bytes} {offset site : Nat} {expanded : List Builtin}
  {replacements : List Replacement}

/-- Nothing is replaced at the end of the source. -/
theorem nil (config : Config) (source : Bytes) (site : Nat) :
    Replaces config source source.length site [] [] [] where
  offset_le := nofun
  apart := .nil
  stands := nofun
  expands := nofun
  numbered := trivial
  text := by rw [List.drop_length]; rfl
  expanded := rfl

/-- Text in front of what is replaced is copied. -/
theorem copied {front : Bytes}
    (hfront : source.drop offset = front ++ source.drop (offset + front.length))
    (hbehind : Replaces config source (offset + front.length) site text expanded replacements) :
    Replaces config source offset site (front ++ text) expanded replacements where
  offset_le := by
    intro replacement hmem
    have hle := hbehind.offset_le replacement hmem
    omega
  apart := hbehind.apart
  stands := hbehind.stands
  expands := hbehind.expands
  numbered := hbehind.numbered
  text := by rw [hfront, patch_append config offset front _ hbehind.offset_le, hbehind.text]
  expanded := hbehind.expanded

/-- A call is replaced in front of the others. -/
theorem cons {replacement : Replacement} (hstands : replacement.Stands source)
    (hexpands : (replacement.expansion? config).isSome)
    (hbehind : Replaces config source replacement.stop (replacement.nextSite config) text expanded
      replacements) :
    Replaces config source replacement.position replacement.site
      (replacement.text config ++ text) (replacement.expanded config ++ expanded)
      (replacement :: replacements) where
  offset_le := by
    intro other hother
    have hstop := replacement.position_lt_stop
    rcases List.mem_cons.mp hother with rfl | hmore
    · exact Nat.le_refl _
    · have hle := hbehind.offset_le other hmore
      omega
  apart := by
    refine .cons (fun other hother => ?_) hbehind.apart
    have hstop := replacement.position_lt_stop
    have hle := hbehind.offset_le other hother
    omega
  stands := List.forall_mem_cons.mpr ⟨hstands, hbehind.stands⟩
  expands := List.forall_mem_cons.mpr ⟨hexpands, hbehind.expands⟩
  numbered := ⟨rfl, hbehind.numbered⟩
  text := by
    have hstop := replacement.position_lt_stop
    have hdrop : replacement.position + (replacement.stop - replacement.position) =
        replacement.stop := by omega
    rw [patch, Nat.sub_self, List.take_zero, List.nil_append, List.drop_drop, hdrop, ← hbehind.text]
  expanded := by rw [List.flatMap_cons, hbehind.expanded]

end Replaces

/-! ## Lines do not matter -/

/-- Whether a call is replaced does not depend on its line. -/
theorem judge_of_line {builtin : Builtin} {line : Nat} {before text : Bytes} {list : ArgumentList}
    (hjudge : judge builtin line before text = .ok list) (line' : Nat) :
    judge builtin line' before text = .ok list := by
  unfold judge at hjudge ⊢
  split at hjudge
  · cases hjudge
  · split at hjudge
    · cases hjudge
    · exact hjudge

/-- Whether a call is kept does not depend on its line. -/
theorem exists_error_of_judge {builtin : Builtin} {line : Nat} {before text : Bytes}
    {reason : KeepReason} (hjudge : judge builtin line before text = .error reason) (line' : Nat) :
    ∃ reason', judge builtin line' before text = .error reason' := by
  cases hother : judge builtin line' before text with
  | error reason' => exact ⟨reason', rfl⟩
  | ok list =>
    rw [judge_of_line hother line] at hjudge
    cases hjudge

/-- Two outlines are rendered alike. -/
def RenderAlike (pieces pieces' : List Piece) : Prop :=
  (∀ site, renderPieces site pieces = renderPieces site pieces') ∧
    expandedPieces pieces = expandedPieces pieces'

/-- Operands are rendered alike whatever their line is. -/
theorem renderOperands_alike {arguments : List Bytes}
    (halike : ∀ argument ∈ arguments, ∀ line line',
      RenderAlike (outline line [] argument) (outline line' [] argument)) (line line' : Nat) :
    (∀ site, renderOperands site (outlineOperands line arguments) =
        renderOperands site (outlineOperands line' arguments)) ∧
      expandedOperands (outlineOperands line arguments) =
        expandedOperands (outlineOperands line' arguments) := by
  induction arguments generalizing line line' with
  | nil =>
    rw [outlineOperands, outlineOperands]
    exact ⟨fun _ => rfl, rfl⟩
  | cons argument more ih =>
    obtain ⟨hrender, hexpanded⟩ := halike argument List.mem_cons_self line line'
    obtain ⟨hmore, hothers⟩ := ih (fun other hother => halike other (List.mem_cons_of_mem _ hother))
      (line + newlines argument) (line' + newlines argument)
    rw [outlineOperands, outlineOperands]
    refine ⟨fun site => ?_, ?_⟩
    · simp only [renderOperands, hrender, hmore]
    · rw [expandedOperands, expandedOperands, hexpanded, hothers]

/-- An outline is rendered alike on whatever line its text begins. -/
theorem outline_alike (line : Nat) (before text : Bytes) :
    ∀ line', RenderAlike (outline line before text) (outline line' before text) := by
  induction line, before, text using outline_induction with
  | nil line before =>
    intro line'
    rw [outline, outline]
    exact ⟨fun _ => rfl, rfl⟩
  | @copied line before b rest lexeme behind hnext hopening ih =>
    intro line'
    obtain ⟨hrender, hexpanded⟩ := ih (line' + newlines lexeme.text)
    rw [outline_copied hnext hopening, outline_copied hnext hopening]
    refine ⟨fun site => ?_, ?_⟩
    · simp only [renderPieces, Piece.render, hrender]
    · simp only [expandedPieces, Piece.expanded, hexpanded]
  | @kept line before b rest lexeme behind builtin gap inner reason hnext hopening hjudge ih =>
    intro line'
    obtain ⟨hrender, hexpanded⟩ := ih line'
    obtain ⟨reason', hjudge'⟩ := exists_error_of_judge hjudge (line' + newlines gap)
    rw [outline_kept hnext hopening hjudge, outline_kept hnext hopening hjudge']
    refine ⟨fun site => ?_, ?_⟩
    · simp only [renderPieces, Piece.render, hrender]
    · simp only [expandedPieces, Piece.expanded, hexpanded]
  | @expanded line before b rest lexeme behind builtin gap inner list hnext hopening hjudge
      hargument ih =>
    intro line'
    obtain ⟨hrender, hexpanded⟩ := ih (line' + newlines (callTail gap list))
    obtain ⟨hoperands, hothers⟩ := renderOperands_alike
      (fun argument hmem line line' => hargument argument hmem line line')
      (line + newlines gap) (line' + newlines gap)
    rw [outline_expanded hnext hopening hjudge,
      outline_expanded hnext hopening (judge_of_line hjudge _)]
    refine ⟨fun site => ?_, ?_⟩
    · simp only [renderPieces, Piece.render, hoperands, hrender]
    · simp only [expandedPieces, Piece.expanded, hothers, hexpanded]

/-- The operands of a call are its arguments, each normalized as a source of its own. -/
theorem normalizeAll_arguments {config : Config} (henabled : config.normalizeAtomics = true)
    (line site : Nat) (arguments : List Bytes) :
    renderOperands site (outlineOperands line arguments) =
        ((Session.normalizeAll ⟨config, site⟩ arguments).1.map
            fun operand => operandText operand.text,
          (Session.normalizeAll ⟨config, site⟩ arguments).2.site) ∧
      expandedOperands (outlineOperands line arguments) =
        (Session.normalizeAll ⟨config, site⟩ arguments).1.flatMap (·.report.expanded) := by
  induction arguments generalizing line site with
  | nil =>
    rw [outlineOperands]
    exact ⟨rfl, rfl⟩
  | cons argument more ih =>
    obtain ⟨hrender, hexpanded⟩ := outline_alike line [] argument 1
    obtain ⟨hmore, hothers⟩ := ih (line + newlines argument)
      (renderPieces site (outline 1 [] argument)).2
    have hnormalize : Session.normalize ⟨config, site⟩ argument =
        (⟨(renderPieces site (outline 1 [] argument)).1,
            { expanded := expandedPieces (outline 1 [] argument)
              kept := keptInPieces (outline 1 [] argument) }⟩,
          ⟨config, (renderPieces site (outline 1 [] argument)).2⟩) := by
      simp only [Session.normalize, henabled, if_true]
    rw [outlineOperands]
    simp only [renderOperands, expandedOperands, Session.normalizeAll, hnormalize, hrender,
      hexpanded, hmore, hothers, List.map_cons, List.flatMap_cons, and_self]

/-! ## The calls of a source -/

/-- White space continues no identifier. -/
theorem not_continuesIdentifier_of_isWhiteSpace {b : UInt8} (hb : Byte.isWhiteSpace b) :
    Byte.continuesIdentifier b = false := by
  simp only [Byte.isWhiteSpace, Bool.or_eq_true, decide_eq_true_eq] at hb
  rcases hb with (((rfl | rfl) | rfl) | rfl) | rfl <;> decide

/-- The text behind a position that is given by the text before it. -/
theorem drop_length_of_append {before text source : Bytes}
    (hsource : before.reverse ++ text = source) : source.drop before.length = text := by
  rw [← hsource, ← List.length_reverse, List.drop_left]

section Outline

variable {source before rest behind gap inner : Bytes} {b : UInt8} {lexeme : Lexeme}
  {builtin : Builtin} {line : Nat} {list : ArgumentList}

/-- A call of an outline stands in the source. -/
theorem stands_of_judge (hsource : before.reverse ++ b :: rest = source)
    (hwords : WordsEnd before (b :: rest)) (hnext : nextLexeme before b rest = (lexeme, behind))
    (hopening : opening? lexeme behind = some (builtin, gap, inner))
    (hjudge : judge builtin line
      (Byte.openParen :: gap.reverse ++ lexeme.text.reverse ++ before) inner = .ok list)
    (site : Nat) : (Replacement.mk before.length builtin gap list site).Stands source := by
  have hdrop := drop_length_of_append hsource
  have hwhole := append_of_nextLexeme hnext
  obtain ⟨rfl, rfl, hgap⟩ := opening?_eq_some.mp hopening
  obtain ⟨first, name, hspelling, hstarts, -⟩ := spelling_shape builtin
  constructor
  · intro c hc
    have hlast : (source.take before.length).getLast? = before.head? := by
      rw [← hsource, ← List.length_reverse, List.take_left, List.getLast?_reverse]
    have hb : b = first := by
      rw [Lexeme.text, hspelling, List.cons_append] at hwhole
      exact (List.cons.inj hwhole).1.symm
    have hjoins : Byte.continuesIdentifier b = true := by
      simp only [Byte.startsIdentifier, Bool.or_eq_true] at hstarts
      rw [hb]
      rcases hstarts with hunderscore | hletter
      · simp [Byte.continuesIdentifier, hunderscore]
      · simp [Byte.continuesIdentifier, Byte.isAlphanumeric, hletter]
    rw [hlast] at hc
    refine Bool.eq_false_iff.mpr fun hcontinues => ?_
    rw [hwords c hc b rfl hcontinues] at hjoins
    cases hjoins
  · intro c hc
    have hbehind : source.drop (before.length + builtin.spelling.length) =
        gap ++ Byte.openParen :: inner := by
      rw [← List.drop_drop, hdrop, ← hwhole, Lexeme.text, List.drop_left]
    rw [hbehind] at hc
    cases gap with
    | nil =>
      rw [← Option.some.inj hc]
      decide
    | cons d gap =>
      rw [← Option.some.inj hc]
      exact not_continuesIdentifier_of_isWhiteSpace (hgap d List.mem_cons_self)
  · exact hgap
  · refine ⟨inner, ?_, (split_of_judge hjudge).1⟩
    rw [hdrop, ← hwhole, Lexeme.text, List.append_assoc]

end Outline

/-- A call has an expansion if it has the arguments that it needs. -/
theorem expand?_isSome {builtin : Builtin} {texts : List Bytes} (site : Nat)
    (htexts : texts.length = builtin.operandCount) :
    expand? builtin (callOperands texts) (.numbered site) =
      some ((Expansion.program builtin).text (callOperands texts) (.numbered site)) := by
  have hvalues : ¬ (callOperands texts).values.length < builtin.valueCount := by
    simp only [callOperands, List.length_tail, htexts, Builtin.valueCount]
    omega
  rw [expand?, if_neg hvalues]

/-- A call with an operand for each one that its built-in wants has an expansion, and this is padded
with line ends up to those of the call. -/
theorem Replacement.expands {replacement : Replacement} {config : Config}
    (hcount : (replacement.operands config).1.length = replacement.builtin.operandCount) :
    (replacement.expansion? config).isSome ∧
      replacement.text config = callText replacement.builtin replacement.gap replacement.list
        ((replacement.operands config).1.map fun operand => operandText operand.text)
        (replacement.operands config).2.site := by
  have hexpansion := expand?_isSome (replacement.operands config).2.site
    ((List.length_map fun operand : Normalized => operandText operand.text).trans hcount)
  constructor
  · rw [Replacement.expansion?, hexpansion]
    rfl
  · rw [Replacement.text, Replacement.expansion?, hexpansion]
    rfl

/-- A text in front adds its length. -/
theorem length_reverse_append (text before : Bytes) :
    (text.reverse ++ before).length = before.length + text.length := by
  rw [List.length_append, List.length_reverse, Nat.add_comm]

/-- A lexeme that is copied stands in front of what is exchanged behind it. -/
theorem Replaces.copied_lexeme {config : Config} {source before rest behind text : Bytes}
    {b : UInt8} {lexeme : Lexeme} {site : Nat} {expanded : List Builtin}
    {replacements : List Replacement}
    (hsource : before.reverse ++ b :: rest = source)
    (hnext : nextLexeme before b rest = (lexeme, behind))
    (hbehind : Replaces config source (lexeme.text.reverse ++ before).length site text expanded
      replacements) :
    Replaces config source before.length site (lexeme.text ++ text) expanded replacements := by
  have hwhole := append_of_nextLexeme hnext
  rw [length_reverse_append] at hbehind
  refine hbehind.copied ?_
  rw [← List.drop_drop, drop_length_of_append hsource, ← hwhole, List.drop_left]

/-- The call of a piece that stands at `offset`. -/
def Piece.replacement? (site offset : Nat) : Piece → Option Replacement
  | .call builtin gap list _ => some ⟨offset, builtin, gap, list, site⟩
  | _ => none

/-- The calls that an outline exchanges, its text beginning at `offset`. -/
def replacementsOf (site offset : Nat) : List Piece → List Replacement
  | [] => []
  | piece :: more =>
    (piece.replacement? site offset).toList ++
      replacementsOf (piece.render site).2 (offset + piece.source.length) more

/-- A piece that is copied replaces nothing. -/
theorem replacementsOf_copied {site offset : Nat} {piece : Piece} (more : List Piece)
    (hpiece : piece.replacement? site offset = none) :
    replacementsOf site offset (piece :: more) =
      replacementsOf (piece.render site).2 (offset + piece.source.length) more := by
  rw [replacementsOf, hpiece]
  rfl

/-- An outline is rendered by exchanging its calls. -/
theorem replaces_outline {config : Config} (henabled : config.normalizeAtomics = true)
    (line : Nat) (before text : Bytes) :
    ∀ source site, before.reverse ++ text = source → WordsEnd before text →
      Replaces config source before.length site (renderPieces site (outline line before text)).1
        (expandedPieces (outline line before text))
        (replacementsOf site before.length (outline line before text)) := by
  induction line, before, text using outline_induction with
  | nil line before =>
    intro source site hsource _
    rw [List.append_nil] at hsource
    rw [outline, ← List.length_reverse, hsource]
    exact .nil config source site
  | @copied line before b rest lexeme behind hnext hopening ih =>
    intro source site hsource hwords
    have hwhole := append_of_nextLexeme hnext
    have hbehind := ih source site (by rw [← hsource, ← hwhole]; simp)
      (wordsEnd_of_nextLexeme hnext)
    have hcopied := hbehind.copied_lexeme hsource hnext
    rw [length_reverse_append] at hcopied
    rw [outline_copied hnext hopening, replacementsOf_copied _ rfl]
    exact hcopied
  | @kept line before b rest lexeme behind builtin gap inner reason hnext hopening hjudge ih =>
    intro source site hsource hwords
    have hwhole := append_of_nextLexeme hnext
    have hbehind := ih source site (by rw [← hsource, ← hwhole]; simp)
      (wordsEnd_of_nextLexeme hnext)
    have hname := text_of_opening hopening
    have hcopied := hbehind.copied_lexeme hsource hnext
    rw [length_reverse_append, hname] at hcopied
    rw [outline_kept hnext hopening hjudge, replacementsOf_copied _ rfl, hname]
    exact hcopied
  | @expanded line before b rest lexeme behind builtin gap inner list hnext hopening hjudge
      hargument ih =>
    intro source site hsource hwords
    have hwhole := append_callTail hnext hopening hjudge
    have hname := text_of_opening hopening
    let head : Replacement := ⟨before.length, builtin, gap, list, site⟩
    have hstop : ((callTail gap list).reverse ++ lexeme.text.reverse ++ before).length =
        head.stop := by
      simp only [head, Replacement.stop, Replacement.written, hname, List.length_append,
        List.length_reverse]
      omega
    -- The call ends in a parenthesis, so a name may begin right behind it.
    have hends : WordsEnd ((callTail gap list).reverse ++ lexeme.text.reverse ++ before)
        list.behind := by
      intro c hc d _ hjoins
      rw [callTail, List.reverse_append] at hc
      cases hc
      exact absurd hjoins (by decide)
    have hbehind := ih source (head.nextSite config) (by rw [← hsource, ← hwhole, hname]; simp)
      hends
    rw [hstop] at hbehind
    obtain ⟨hoperands, hexpanded⟩ := normalizeAll_arguments henabled (line + newlines gap) site
      (list.arguments.take builtin.operandCount)
    have hcount : (head.operands config).1.length = builtin.operandCount := by
      have hlength := congrArg (fun operands => operands.1.length) hoperands
      rw [length_renderOperands, length_outlineOperands, List.length_take, List.length_map,
        Nat.min_eq_left (operandCount_le_of_judge hjudge)] at hlength
      exact hlength.symm
    obtain ⟨hexpands, htext⟩ := Replacement.expands hcount
    have hcons := hbehind.cons (stands_of_judge hsource hwords hnext hopening hjudge site) hexpands
    rw [htext] at hcons
    rw [outline_expanded hnext hopening hjudge]
    simp only [renderPieces, Piece.render, expandedPieces, Piece.expanded, replacementsOf,
      hoperands, hexpanded]
    exact hcons

/-- Normalization exchanges calls of the source for their expansions and copies everything else.
It changes nothing if it is switched off or there is no call. -/
theorem exists_replaces_normalize (session : Session) (source : Bytes) :
    (∃ replacements, Replaces session.config source 0 session.site
        (session.normalize source).1.text (session.normalize source).1.report.expanded
        replacements) ∧
      (session.config.normalizeAtomics = false ∨
          (∀ replacement : Replacement, ¬ replacement.Stands source) →
        (session.normalize source).1.text = source) := by
  have hunchanged : patch session.config 0 (source.drop 0) [] = source := rfl
  by_cases henabled : session.config.normalizeAtomics = true
  · have hnormalize : (session.normalize source).1 =
        ⟨(renderPieces session.site (outline 1 [] source)).1,
          { expanded := expandedPieces (outline 1 [] source)
            kept := keptInPieces (outline 1 [] source) }⟩ := by
      simp only [Session.normalize, henabled, if_true]
    have hreplaces := replaces_outline henabled 1 [] source source session.site rfl (wordsEnd_nil _)
    rw [hnormalize]
    refine ⟨⟨_, hreplaces⟩, ?_⟩
    rintro (hdisabled | hnone)
    · rw [henabled] at hdisabled
      cases hdisabled
    · have hnil : replacementsOf session.site 0 (outline 1 [] source) = [] :=
        List.eq_nil_iff_forall_not_mem.mpr fun replacement hmem =>
          hnone replacement (hreplaces.stands replacement hmem)
      have htext := hreplaces.text
      rw [List.length_nil, hnil] at htext
      exact htext
  · have hnormalize : (session.normalize source).1 = ⟨source, { passthrough := true }⟩ := by
      simp only [Session.normalize, if_neg henabled]
    rw [hnormalize]
    exact ⟨⟨[], nofun, .nil, nofun, nofun, trivial, rfl, rfl⟩, fun _ => rfl⟩

/-- A call passes through a session with normalization switched off. -/
theorem text_of_disabled :
    (Session.normalize { config := { normalizeAtomics := false } }
      (ofString "__sync_synchronize()")).1.text = ofString "__sync_synchronize()" :=
  (exists_replaces_normalize _ _).2 (.inl rfl)

end PlainSync.Source
