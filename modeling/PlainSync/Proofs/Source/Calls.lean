import Mathlib.Data.List.TakeWhile
import PlainSync.Proofs.Source.InStep

/-!
# The calls of a source

The positions at which one scan of a whole source sees calls of built-ins. Whether a call is
opened depends on the text behind a name only up to the next byte that is neither white space
nor an opening parenthesis, so a stretch that ends in front of such a byte has its calls to
itself.
-/

namespace PlainSync.Source

/-- A call of a built-in as one scan of a source sees it. -/
structure CodeCall where
  /-- Where the name begins. -/
  position : Nat
  builtin : Builtin
  /-- Where the text behind the opening parenthesis begins. -/
  inner : Nat
  deriving DecidableEq, Repr

/-- The calls that lexemes open, the first of which begins at `offset`. -/
def callsOf (offset : Nat) : List Lexeme → List CodeCall
  | [] => []
  | lexeme :: more =>
    match opening? lexeme (textOf more) with
    | none => callsOf (offset + lexeme.text.length) more
    | some (builtin, gap, _) =>
      ⟨offset, builtin, offset + lexeme.text.length + gap.length + 1⟩ ::
        callsOf (offset + lexeme.text.length) more

/-- The calls of a source. -/
def codeCalls (source : Bytes) : List CodeCall := callsOf 0 (lexemes [] source)

section Steps

variable {offset : Nat} {lexeme : Lexeme} {more : List Lexeme} {builtin : Builtin}
  {gap inner : Bytes}

/-- A lexeme that opens no call is none. -/
theorem callsOf_cons_none (hopening : opening? lexeme (textOf more) = none) :
    callsOf offset (lexeme :: more) = callsOf (offset + lexeme.text.length) more := by
  rw [callsOf, hopening]

/-- A lexeme that opens a call is the first one. -/
theorem callsOf_cons_some (hopening : opening? lexeme (textOf more) = some (builtin, gap, inner)) :
    callsOf offset (lexeme :: more) =
      ⟨offset, builtin, offset + lexeme.text.length + gap.length + 1⟩ ::
        callsOf (offset + lexeme.text.length) more := by
  rw [callsOf, hopening]

/-- A byte opens no call. -/
theorem callsOf_mark (offset : Nat) (b : UInt8) (more : List Lexeme) :
    callsOf offset (.mark b :: more) = callsOf (offset + 1) more :=
  callsOf_cons_none rfl

end Steps

/-- Names of built-ins are not empty. -/
theorem length_spelling_pos (builtin : Builtin) : 0 < builtin.spelling.length := by
  obtain ⟨b, rest, hspelling, -⟩ := spelling_shape builtin
  rw [hspelling]
  exact Nat.succ_pos _

/-- Calls stand inside their text. -/
theorem bounds_of_mem_callsOf {offset : Nat} {list : List Lexeme} {call : CodeCall}
    (hcall : call ∈ callsOf offset list) :
    offset ≤ call.position ∧ call.position < offset + (textOf list).length := by
  induction list generalizing offset with
  | nil => cases hcall
  | cons lexeme list ih =>
    rw [textOf_cons, List.length_append]
    cases hopening : opening? lexeme (textOf list) with
    | none =>
      rw [callsOf_cons_none hopening] at hcall
      have hbounds := ih hcall
      omega
    | some opened =>
      obtain ⟨builtin, gap, inner⟩ := opened
      rw [callsOf_cons_some hopening] at hcall
      obtain ⟨rfl, -, -⟩ := opening?_eq_some.mp hopening
      rcases List.mem_cons.mp hcall with rfl | hmore
      · have hpos := length_spelling_pos builtin
        simp only [Lexeme.text]
        omega
      · have hbounds := ih hmore
        omega

/-- The arguments of a call stand behind its name. -/
theorem position_lt_inner_of_mem_callsOf {offset : Nat} {list : List Lexeme} {call : CodeCall}
    (hcall : call ∈ callsOf offset list) : call.position < call.inner := by
  induction list generalizing offset with
  | nil => cases hcall
  | cons lexeme list ih =>
    cases hopening : opening? lexeme (textOf list) with
    | none =>
      rw [callsOf_cons_none hopening] at hcall
      exact ih hcall
    | some opened =>
      obtain ⟨builtin, gap, inner⟩ := opened
      rw [callsOf_cons_some hopening] at hcall
      rcases List.mem_cons.mp hcall with rfl | hmore
      · dsimp only
        omega
      · exact ih hmore

/-- Calls are listed from left to right, each once. -/
theorem pairwise_callsOf (offset : Nat) (list : List Lexeme) :
    (callsOf offset list).Pairwise (·.position < ·.position) := by
  induction list generalizing offset with
  | nil => exact .nil
  | cons lexeme list ih =>
    cases hopening : opening? lexeme (textOf list) with
    | none =>
      rw [callsOf_cons_none hopening]
      exact ih _
    | some opened =>
      obtain ⟨builtin, gap, inner⟩ := opened
      rw [callsOf_cons_some hopening]
      refine .cons (fun call hcall => ?_) (ih _)
      obtain ⟨rfl, -, -⟩ := opening?_eq_some.mp hopening
      have hpos := length_spelling_pos builtin
      have hbounds := bounds_of_mem_callsOf hcall
      simp only [Lexeme.text] at hbounds ⊢
      omega

/-- A byte that ends every call that is not opened in front of it. -/
def endsOpening (b : UInt8) : Bool := !Byte.isWhiteSpace b && b ≠ Byte.openParen

/-- Behind such a byte nothing matters. -/
theorem opening?_append (lexeme : Lexeme) (text tail : Bytes) {b : UInt8}
    (hb : endsOpening b) :
    (opening? lexeme (text ++ b :: tail)).map (fun opened => (opened.1, opened.2.1)) =
      (opening? lexeme text).map (fun opened => (opened.1, opened.2.1)) := by
  simp only [endsOpening, Bool.and_eq_true, Bool.not_eq_true', decide_eq_true_eq] at hb
  obtain ⟨hwhite, hparen⟩ := hb
  cases lexeme with
  | word name =>
    simp only [opening?]
    cases Builtin.ofSpelling? name with
    | none => rfl
    | some builtin =>
      by_cases hall : text.dropWhile Byte.isWhiteSpace = []
      · have hspace : ∀ c ∈ text, Byte.isWhiteSpace c := List.dropWhile_eq_nil_iff.mp hall
        rw [hall, List.dropWhile_append_of_pos hspace,
          List.dropWhile_cons_of_neg (by simp [hwhite])]
        simp only [if_neg hparen]
      · obtain ⟨htake, hdrop⟩ := takeWhile_append_of_stop (b :: tail) hall
        rw [htake, hdrop]
        cases hrest : text.dropWhile Byte.isWhiteSpace with
        | nil => exact absurd hrest hall
        | cons c rest =>
          simp only [List.cons_append]
          split <;> rfl
  | _ => rfl

/-- A stretch in front of such a byte has its calls to itself. -/
theorem callsOf_append {offset : Nat} {front : List Lexeme} {b : UInt8} (back : List Lexeme)
    (hb : endsOpening b) :
    callsOf offset (front ++ .mark b :: back) =
      callsOf offset front ++ callsOf (offset + (textOf front).length + 1) back := by
  induction front generalizing offset with
  | nil => exact callsOf_mark offset b back
  | cons lexeme front ih =>
    have hopened := opening?_append lexeme (textOf front) (textOf back) hb
    have htext : textOf (front ++ .mark b :: back) = textOf front ++ b :: textOf back := by
      rw [textOf_append]
      rfl
    rw [← htext] at hopened
    have hmore := @ih (offset + lexeme.text.length)
    rw [textOf_cons, List.length_append, ← Nat.add_assoc, List.cons_append]
    cases hopening : opening? lexeme (textOf front) with
    | none =>
      rw [hopening, Option.map_none, Option.map_eq_none_iff] at hopened
      rw [callsOf_cons_none hopened, callsOf_cons_none hopening, hmore]
    | some opened =>
      obtain ⟨builtin, gap, inner⟩ := opened
      rw [hopening, Option.map_some, Option.map_eq_some_iff] at hopened
      obtain ⟨⟨builtin', gap', inner'⟩, hlonger, hsame⟩ := hopened
      simp only [Prod.mk.injEq] at hsame
      obtain ⟨rfl, rfl⟩ := hsame
      rw [callsOf_cons_some hlonger, callsOf_cons_some hopening, hmore, List.cons_append]

/-- No byte of a word is white space. -/
theorem not_isWhiteSpace_of_joinsWord {b : UInt8} (hb : joinsWord b) :
    Byte.isWhiteSpace b = false := by
  have hne {c : UInt8} (hc : joinsWord c = false) : b ≠ c := ne_of_joinsWord hb hc
  simp [Byte.isWhiteSpace, hne (c := Byte.space) (by decide), hne (c := Byte.tab) (by decide),
    hne (c := Byte.newline) (by decide), hne (c := Byte.formFeed) (by decide),
    hne (c := Byte.carriageReturn) (by decide)]

/-- White space has no calls. -/
theorem callsOf_of_white {offset : Nat} {list : List Lexeme}
    (hwhite : ∀ b ∈ textOf list, Byte.isWhiteSpace b) : callsOf offset list = [] := by
  induction list generalizing offset with
  | nil => rfl
  | cons lexeme list ih =>
    rw [textOf_cons] at hwhite
    have hopening : opening? lexeme (textOf list) = none := by
      refine Option.eq_none_iff_forall_ne_some.mpr ?_
      rintro ⟨builtin, gap, inner⟩ hopening
      obtain ⟨rfl, -, -⟩ := opening?_eq_some.mp hopening
      obtain ⟨b, rest, hspelling, hstarts, -⟩ := spelling_shape builtin
      have hb : b ∈ builtin.spelling := by rw [hspelling]; exact List.mem_cons_self
      have hspace := hwhite b (List.mem_append_left _ hb)
      rw [not_isWhiteSpace_of_joinsWord (joinsWord_of_mem_spelling b hb)] at hspace
      cases hspace
    rw [callsOf_cons_none hopening]
    exact ih fun b hb => hwhite b (List.mem_append_right _ hb)

/-! ## The lexemes of a call -/

/-- White space is read byte by byte. -/
theorem nextLexeme_of_isWhiteSpace (before rest : Bytes) {b : UInt8} (hb : Byte.isWhiteSpace b) :
    nextLexeme before b rest = (.mark b, rest) := by
  simp only [Byte.isWhiteSpace, Bool.or_eq_true, decide_eq_true_eq] at hb
  rcases hb with (((rfl | rfl) | rfl) | rfl) | rfl <;> rfl

/-- White space is read byte by byte in front of anything. -/
theorem lexemes_white_append (before tail : Bytes) {gap : Bytes}
    (hgap : ∀ b ∈ gap, Byte.isWhiteSpace b) :
    lexemes before (gap ++ tail) = gap.map .mark ++ lexemes (gap.reverse ++ before) tail := by
  induction gap generalizing before with
  | nil => rfl
  | cons b gap ih =>
    rw [List.cons_append, lexemes_cons (nextLexeme_of_isWhiteSpace _ _ (hgap b (by simp))),
      ih _ fun c hc => hgap c (by simp [hc])]
    simp [Lexeme.text]

/-- What stands between the name of a call and the text behind its opening parenthesis. -/
def openingLexemes (gap : Bytes) : List Lexeme := gap.map .mark ++ [.mark Byte.openParen]

/-- Bytes that are lexemes make up their text. -/
theorem textOf_map_mark (gap : Bytes) : textOf (gap.map .mark) = gap := by
  induction gap with
  | nil => rfl
  | cons b gap ih => rw [List.map_cons, textOf_cons, ih]; rfl

/-- The text between a name and its arguments. -/
@[simp] theorem textOf_openingLexemes (gap : Bytes) :
    textOf (openingLexemes gap) = gap ++ [Byte.openParen] := by
  rw [openingLexemes, textOf_append, textOf_map_mark]
  rfl

/-- No call begins between a name and its arguments. -/
theorem callsOf_openingLexemes (offset : Nat) (gap : Bytes) (more : List Lexeme) :
    callsOf offset (openingLexemes gap ++ more) = callsOf (offset + gap.length + 1) more := by
  induction gap generalizing offset with
  | nil => exact callsOf_mark offset _ more
  | cons b gap ih =>
    rw [openingLexemes, List.map_cons, List.cons_append, List.cons_append, callsOf_mark,
      ← openingLexemes, ih, List.length_cons, Nat.add_right_comm offset 1]
    rfl

/-- The lexemes of a text that begins with a call. -/
theorem lexemes_of_opening {before rest behind gap inner : Bytes} {b : UInt8} {lexeme : Lexeme}
    {builtin : Builtin} (hnext : nextLexeme before b rest = (lexeme, behind))
    (hopening : opening? lexeme behind = some (builtin, gap, inner)) :
    lexemes before (b :: rest) =
      lexeme :: (openingLexemes gap ++
        lexemes (Byte.openParen :: gap.reverse ++ lexeme.text.reverse ++ before) inner) := by
  obtain ⟨-, rfl, hgap⟩ := opening?_eq_some.mp hopening
  have hparen : nextLexeme (gap.reverse ++ (lexeme.text.reverse ++ before)) Byte.openParen inner =
      (.mark Byte.openParen, inner) := rfl
  rw [lexemes_cons hnext, lexemes_white_append _ _ hgap, lexemes_cons hparen, openingLexemes]
  simp [Lexeme.text]

/-- The lexemes of an argument list without directives, and those behind it. -/
theorem exists_lexemes_of_judge {builtin : Builtin} {line : Nat} {before inner : Bytes}
    {list : ArgumentList} (hjudge : judge builtin line before inner = .ok list)
    (hundivided : UndividedUpTo list.inside.length (lexemes before inner)) :
    ∃ first more,
      lexemes before inner = insideOf first more ++ .mark Byte.closeParen ::
        lexemes (Byte.closeParen :: list.inside.reverse ++ before) list.behind ∧
      textOf first = list.first ∧ more.map textOf = list.more ∧
        ∀ text, .directive text ∉ insideOf first more := by
  obtain ⟨hsplit, hdirective⟩ := split_of_judge hjudge
  rw [findDirective?_eq_find?_of_upTo hundivided, List.find?_eq_none] at hdirective
  obtain ⟨first, more, back, hcut, hfirst, hmore, hnone⟩ :=
    cutsAt_of_splitArguments? hsplit hundivided fun position hposition => by
      simpa using hdirective position hposition
  refine ⟨first, more, ?_, hfirst, hmore, hnone⟩
  have hinside : textOf (insideOf first more ++ [.mark Byte.closeParen]) =
      list.inside ++ [Byte.closeParen] := by
    rw [textOf_append, textOf_insideOf_eq_inside hfirst hmore]
    rfl
  have hwhole : list.inside ++ [Byte.closeParen] ++ list.behind = inner := by
    rw [List.append_assoc]
    exact append_of_judge hjudge
  have hlexemes : lexemes before (list.inside ++ [Byte.closeParen] ++ list.behind) =
      insideOf first more ++ [.mark Byte.closeParen] ++ back := by
    rw [hwhole, hcut, List.append_assoc]
    rfl
  have hback := (lexemes_cut hlexemes hinside).2
  rw [List.reverse_append] at hback
  rw [hcut, ← hback]
  rfl

/-- The lexemes of a text that begins with a call that can be expanded. -/
theorem exists_lexemes_of_call {before rest behind gap inner : Bytes} {b : UInt8}
    {lexeme : Lexeme} {builtin : Builtin} {line : Nat} {list : ArgumentList}
    (hundivided : Undivided (lexemes before (b :: rest)))
    (hnext : nextLexeme before b rest = (lexeme, behind))
    (hopening : opening? lexeme behind = some (builtin, gap, inner))
    (hjudge : judge builtin line
      (Byte.openParen :: gap.reverse ++ lexeme.text.reverse ++ before) inner = .ok list) :
    ∃ first more,
      lexemes before (b :: rest) = lexeme :: openingLexemes gap ++ insideOf first more ++
        .mark Byte.closeParen ::
          lexemes ((callTail gap list).reverse ++ lexeme.text.reverse ++ before) list.behind ∧
      textOf first = list.first ∧ more.map textOf = list.more ∧
        ∀ text, .directive text ∉ insideOf first more := by
  rw [lexemes_of_opening hnext hopening, ← List.cons_append] at hundivided
  obtain ⟨first, more, hcut, hlist⟩ :=
    exists_lexemes_of_judge hjudge (hundivided.of_append.2.upTo _)
  refine ⟨first, more, ?_, hlist⟩
  rw [lexemes_of_opening hnext hopening, hcut]
  simp [callTail]

/-- The calls of such a text: the call, those among its arguments and those behind it. -/
theorem callsOf_call {before rest behind gap inner : Bytes} {b : UInt8} {lexeme : Lexeme}
    {builtin : Builtin} {inside more : List Lexeme} (offset : Nat)
    (hnext : nextLexeme before b rest = (lexeme, behind))
    (hopening : opening? lexeme behind = some (builtin, gap, inner))
    (hcut : lexemes before (b :: rest) =
      lexeme :: openingLexemes gap ++ inside ++ .mark Byte.closeParen :: more) :
    callsOf offset (lexemes before (b :: rest)) =
      ⟨offset, builtin, offset + lexeme.text.length + gap.length + 1⟩ ::
        callsOf (offset + lexeme.text.length + gap.length + 1) inside ++
          callsOf (offset + lexeme.text.length + gap.length + 1 + (textOf inside).length + 1)
            more := by
  rw [lexemes_cons hnext] at hcut ⊢
  rw [List.cons_append, List.cons_append] at hcut
  have htail := (List.cons.inj hcut).2
  rw [callsOf_cons_some (by rw [textOf_lexemes]; exact hopening), htail, List.append_assoc,
    callsOf_openingLexemes, callsOf_append more (by decide)]
  rfl

/-- A stretch of a text without hash marks has the same lexemes as a text of its own. -/
theorem lexemes_textOf {before text : Bytes} {front list back : List Lexeme}
    (hlexemes : lexemes before text = front ++ list ++ back) (hhashless : Hashless list) :
    lexemes [] (textOf list) = list := by
  have hwhole := textOf_lexemes before text
  rw [hlexemes, textOf_append, textOf_append] at hwhole
  rw [← hwhole] at hlexemes
  have hboth := (lexemes_cut hlexemes (textOf_append front list)).1
  have hback := (lexemes_cut hboth rfl).2
  rw [← hback] at hhashless
  have hsame : lexemes [] (textOf list) =
      lexemes ((textOf front).reverse ++ before) (textOf list) := lexemes_of_hashless hhashless
  rw [hsame, hback]

end PlainSync.Source
