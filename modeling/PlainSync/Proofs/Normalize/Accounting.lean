import PlainSync.Proofs.Normalize.PartAccounting

/-!
# Reports account for every call

The outline of an argument looks at the argument alone, and so does every search in it. All of
them see what one scan of the whole source sees there, so each call of that scan is accounted
for in the report, and nothing else is.
-/

namespace PlainSync.Source

open Bytes

/-! ## Accounts of an outline -/

/-- The text behind an opening parenthesis is judged as it is in the whole source. -/
theorem verdict_eq_judge {source before inner : Bytes} {front back : List Lexeme}
    {line position : Nat} (builtin : Builtin) (hundivided : Undivided (lexemes [] source))
    (hlexemes : lexemes [] source = front ++ lexemes before inner ++ back)
    (hline : line = 1 + newlines (textOf front)) :
    verdict source ((textOf front).length + inner.length)
        ⟨position, builtin, (textOf front).length⟩ =
      judge builtin line before inner := by
  have hsource : textOf front ++ inner ++ textOf back = source := by
    have hwhole := textOf_lexemes [] source
    rwa [hlexemes, textOf_append, textOf_append, textOf_lexemes] at hwhole
  have hread : (source.take ((textOf front).length + inner.length)).drop (textOf front).length =
      inner := by
    rw [← hsource, ← List.length_append, List.take_left, List.drop_left]
  have hpos {list : List Lexeme} (hlist : list ⊆ lexemes [] source) :
      ∀ lexeme ∈ list, 0 < lexeme.text.length :=
    fun lexeme hlexeme => length_text_pos_of_mem_lexemes (hlist hlexeme)
  unfold verdict judge
  rw [hread]
  cases hsplit : splitArguments? 0 inner with
  | none => rfl
  | some list =>
    have hspan : list.inside.length ≤ inner.length := by
      rw [← append_of_splitArguments? hsplit, List.length_append]
      omega
    have hdirective := findDirective?_eq_find? list.inside.length
      (fun text htext => hundivided text (by rw [hlexemes]; simp [htext]) :
        Undivided (lexemes before inner))
    have hin : list.inside.length ≤ (textOf (lexemes before inner)).length := by
      rw [textOf_lexemes]
      exact hspan
    have hfound := find?_directivesOf_append
      (hpos (by rw [hlexemes]; simp) : ∀ lexeme ∈ front, _)
      (hpos (by rw [hlexemes]; simp) : ∀ lexeme ∈ back, _) hin
    rw [← hdirective, ← hlexemes] at hfound
    simp only [hfound]
    cases hoffset : findDirective? before inner list.inside.length with
    | none => rfl
    | some offset =>
      rw [hoffset] at hdirective
      have hless : offset < list.inside.length := by
        simpa using List.find?_some hdirective.symm
      have htake : source.take ((textOf front).length + offset) =
          textOf front ++ inner.take offset := by
        rw [← hsource, List.append_assoc, List.take_length_add_append,
          List.take_append_of_le_length (by omega)]
      simp only [Option.map_some, lineAt, htake, newlines_append, hline, Nat.add_assoc]

section Outline

variable {source before rest behind gap inner : Bytes} {b : UInt8} {lexeme : Lexeme}
  {front back : List Lexeme} {builtin : Builtin} {line : Nat}

/-- The name of a call is on one line. -/
theorem newlines_of_opening (hopening : opening? lexeme behind = some (builtin, gap, inner)) :
    newlines lexeme.text = 0 := by
  obtain ⟨rfl, -, -⟩ := opening?_eq_some.mp hopening
  exact newlines_eq_zero_of_all (by decide) joinsWord_of_mem_spelling

/-- The parts of a source around a call. -/
theorem lexemes_around_opening (hnext : nextLexeme before b rest = (lexeme, behind))
    (hopening : opening? lexeme behind = some (builtin, gap, inner))
    (hlexemes : lexemes [] source = front ++ lexemes before (b :: rest) ++ back)
    (hline : line = 1 + newlines (textOf front)) :
    lexemes [] source = front ++ lexeme :: openingLexemes gap ++
        lexemes (Byte.openParen :: gap.reverse ++ lexeme.text.reverse ++ before) inner ++ back ∧
      line + newlines gap = 1 + newlines (textOf (front ++ lexeme :: openingLexemes gap)) ∧
      (textOf (front ++ lexeme :: openingLexemes gap)).length =
        (textOf front).length + lexeme.text.length + gap.length + 1 ∧
      (textOf front).length + (b :: rest).length =
        (textOf (front ++ lexeme :: openingLexemes gap)).length + inner.length := by
  have hwhole := congrArg List.length (append_of_nextLexeme hnext)
  rw [lexemes_of_opening hnext hopening] at hlexemes
  have hname := newlines_of_opening hopening
  obtain ⟨-, rfl, -⟩ := opening?_eq_some.mp hopening
  refine ⟨by rw [hlexemes]; simp, ?_, by simp; omega, ?_⟩
  · have hparen : newlines [Byte.openParen] = 0 := rfl
    simp only [textOf_append, textOf_cons, textOf_openingLexemes, newlines_append, hname, hparen,
      hline]
    omega
  · simp only [List.length_append, List.length_cons] at hwhole
    simp only [textOf_append, textOf_cons, textOf_openingLexemes, List.length_append,
      List.length_cons, List.length_nil]
    omega

/-- The accounts behind the first lexeme of a text. -/
theorem Accountable.exists_behind (hnext : nextLexeme before b rest = (lexeme, behind))
    (hbehind : Accountable source (line + newlines lexeme.text) (lexeme.text.reverse ++ before)
      behind)
    (hlexemes : lexemes [] source = front ++ lexemes before (b :: rest) ++ back)
    (hline : line = 1 + newlines (textOf front)) (site : Nat) :
    ∃ accounts, PartAccounting source [] ((textOf front).length + lexeme.text.length)
      ((textOf front).length + (b :: rest).length) ((textOf front).length + (b :: rest).length)
      (callsOf ((textOf front).length + lexeme.text.length)
        (lexemes (lexeme.text.reverse ++ before) behind))
      (keptInPieces
        (outline (line + newlines lexeme.text) (lexeme.text.reverse ++ before) behind))
      (expandedPieces
        (outline (line + newlines lexeme.text) (lexeme.text.reverse ++ before) behind))
      ((replacementsOf site ((textOf front).length + lexeme.text.length)
        (outline (line + newlines lexeme.text) (lexeme.text.reverse ++ before) behind)).map
          Replacement.account) accounts := by
  have hstart : (textOf (front ++ [lexeme])).length =
      (textOf front).length + lexeme.text.length := by simp
  have hstop : (textOf front).length + (b :: rest).length =
      (textOf front).length + lexeme.text.length + behind.length := by
    rw [← append_of_nextLexeme hnext, List.length_append, Nat.add_assoc]
  rw [lexemes_cons hnext] at hlexemes
  rw [hstop, ← hstart]
  refine hbehind (front ++ [lexeme]) back site (by rw [hlexemes]; simp) ?_
  rw [hline, textOf_append, newlines_append, Nat.add_assoc]
  simp

/-- A lexeme that is copied gives no account. -/
theorem Accountable.copied (hnext : nextLexeme before b rest = (lexeme, behind))
    (hopening : opening? lexeme behind = none)
    (hbehind : Accountable source (line + newlines lexeme.text) (lexeme.text.reverse ++ before)
      behind) :
    Accountable source line before (b :: rest) := by
  intro front back site hlexemes hline
  obtain ⟨accounts, hpart⟩ := hbehind.exists_behind hnext hlexemes hline site
  rw [outline_copied hnext hopening, replacementsOf_copied _ rfl, lexemes_cons hnext,
    callsOf_cons_none (by rw [textOf_lexemes]; exact hopening)]
  refine ⟨accounts, ?_⟩
  have hwhole := congrArg List.length (append_of_nextLexeme hnext)
  rw [List.length_append] at hwhole
  exact (PartAccounting.empty source _ _ _).append hpart (Nat.le_refl _) (by omega) (by omega)

/-- What the source makes of a call is what the outline makes of it. -/
theorem verdict_opening (hundivided : Undivided (lexemes [] source))
    (hnext : nextLexeme before b rest = (lexeme, behind))
    (hopening : opening? lexeme behind = some (builtin, gap, inner))
    (hlexemes : lexemes [] source = front ++ lexemes before (b :: rest) ++ back)
    (hline : line = 1 + newlines (textOf front)) :
    verdict source ((textOf front).length + (b :: rest).length)
        ⟨(textOf front).length, builtin,
          (textOf front).length + lexeme.text.length + gap.length + 1⟩ =
      judge builtin (line + newlines gap)
        (Byte.openParen :: gap.reverse ++ lexeme.text.reverse ++ before) inner := by
  obtain ⟨hinner, hline', hstart, hstop⟩ :=
    lexemes_around_opening hnext hopening hlexemes hline
  rw [hstop, ← hstart]
  exact verdict_eq_judge builtin hundivided hinner hline'

/-- A call that is kept gives account in front of the others. -/
theorem Accountable.kept {reason : KeepReason} (hundivided : Undivided (lexemes [] source))
    (hnext : nextLexeme before b rest = (lexeme, behind))
    (hopening : opening? lexeme behind = some (builtin, gap, inner))
    (hjudge : judge builtin (line + newlines gap)
      (Byte.openParen :: gap.reverse ++ lexeme.text.reverse ++ before) inner = .error reason)
    (hbehind : Accountable source line (lexeme.text.reverse ++ before) behind) :
    Accountable source line before (b :: rest) := by
  intro front back site hlexemes hline
  have hverdict := verdict_opening hundivided hnext hopening hlexemes hline
  rw [hjudge] at hverdict
  have hname := newlines_of_opening hopening
  rw [← Nat.add_zero line, ← hname] at hbehind
  obtain ⟨accounts, hpart⟩ := hbehind.exists_behind hnext hlexemes hline site
  rw [hname, Nat.add_zero] at hpart
  have hlineAt : lineAt source (textOf front).length = line := by
    have hsource := textOf_lexemes [] source
    rw [hlexemes, List.append_assoc, textOf_append] at hsource
    rw [lineAt, ← hsource, List.take_left, hline]
  have hpos := length_text_pos_of_nextLexeme hnext
  have hwhole := congrArg List.length (append_of_nextLexeme hnext)
  rw [List.length_append] at hwhole
  let head : Account :=
    ⟨⟨(textOf front).length, builtin,
      (textOf front).length + lexeme.text.length + gap.length + 1⟩, .kept reason⟩
  have hfate : head.fate =
      fateOf source ((textOf front).length + (b :: rest).length) [] head.call := by
    rw [fateOf_nil, hverdict]
  have hcons := hpart.cons hfate (by simp only [head]; omega) (by omega)
  rw [outline_kept hnext hopening hjudge, lexemes_cons hnext,
    callsOf_cons_some (by rw [textOf_lexemes]; exact hopening)]
  have hspelling := (text_of_opening hopening).symm
  refine ⟨head :: accounts, ?_⟩
  rw [replacementsOf_copied _ rfl, Piece.source, hspelling]
  simpa [head, Account.kept?, Account.rewritten?, keptInPieces, expandedPieces, Piece.keptCalls,
    Piece.expanded, Piece.render, hlineAt] using hcons

/-- The accounts of a call that is rewritten and of the calls in its arguments. -/
theorem exists_partAccounting_call {list : ArgumentList} {first tail : List Lexeme}
    {more : List (List Lexeme)} (hundivided : Undivided (lexemes [] source))
    (hhash : .mark Byte.hash ∉ lexemes [] source)
    (hnext : nextLexeme before b rest = (lexeme, behind))
    (hopening : opening? lexeme behind = some (builtin, gap, inner))
    (hjudge : judge builtin (line + newlines gap)
      (Byte.openParen :: gap.reverse ++ lexeme.text.reverse ++ before) inner = .ok list)
    (harguments : ∀ argument ∈ list.arguments.take builtin.operandCount,
      ∀ line, Accountable source line [] argument)
    (hlexemes : lexemes [] source = front ++ lexemes before (b :: rest) ++ back)
    (hline : line = 1 + newlines (textOf front))
    (hcut : lexemes before (b :: rest) =
      lexeme :: openingLexemes gap ++ insideOf first more ++ .mark Byte.closeParen :: tail)
    (hfirst : textOf first = list.first) (hmore : more.map textOf = list.more)
    (hnone : ∀ text, .directive text ∉ insideOf first more) (site : Nat) :
    ∃ accounts, PartAccounting source [] (textOf front).length
      ((textOf front).length + lexeme.text.length + gap.length + 1 + list.inside.length)
      ((textOf front).length + (b :: rest).length)
      (⟨(textOf front).length, builtin,
          (textOf front).length + lexeme.text.length + gap.length + 1⟩ ::
        callsOf ((textOf front).length + lexeme.text.length + gap.length + 1)
          (insideOf first more))
      (keptInOperands (outlineOperands (line + newlines gap)
        (list.arguments.take builtin.operandCount)))
      (expandedOperands (outlineOperands (line + newlines gap)
        (list.arguments.take builtin.operandCount)) ++ [builtin])
      [Replacement.account ⟨(textOf front).length, builtin, gap, list, site⟩] accounts := by
  have hverdict := verdict_opening hundivided hnext hopening hlexemes hline
  rw [hjudge] at hverdict
  obtain ⟨-, hline', hstart, hstop⟩ := lexemes_around_opening hnext hopening hlexemes hline
  have hwhole := congrArg List.length (append_of_judge hjudge)
  simp only [List.length_append, List.length_cons] at hwhole
  have hhashless : Hashless (insideOf first more) := by
    intro other hother
    refine ⟨?_, ?_⟩
    · rintro rfl
      exact hhash (by rw [hlexemes, hcut]; simp [hother])
    · rintro text rfl
      exact hnone text hother
  have hinside : lexemes [] source = front ++ lexeme :: openingLexemes gap ++
      insideOf first more ++ (.mark Byte.closeParen :: tail ++ back) := by
    rw [hlexemes, hcut]
    simp only [List.append_assoc, List.cons_append]
  obtain ⟨accounts, hpart⟩ := exists_partAccounting_list builtin.operandCount hinside hhashless
    hline' hfirst hmore harguments (by omega : _ ≤ (textOf front).length + (b :: rest).length)
  rw [hstart] at hpart
  let head : Account :=
    ⟨⟨(textOf front).length, builtin,
      (textOf front).length + lexeme.text.length + gap.length + 1⟩, .rewritten list⟩
  have hbehind : PartAccounting source head.stretches _ _ _ _ _ _ _ _ := hpart
  have hcall := hbehind.cons (by rw [fateOf_nil, hverdict]) (by dsimp only [head]; omega) (by omega)
  obtain ⟨rfl, -, -⟩ := opening?_eq_some.mp hopening
  exact ⟨head :: accounts, hcall⟩

/-- A call that is replaced gives account in front of those in its arguments, and these in front of
the others. -/
theorem Accountable.expanded {list : ArgumentList} (hundivided : Undivided (lexemes [] source))
    (hhash : .mark Byte.hash ∉ lexemes [] source)
    (hnext : nextLexeme before b rest = (lexeme, behind))
    (hopening : opening? lexeme behind = some (builtin, gap, inner))
    (hjudge : judge builtin (line + newlines gap)
      (Byte.openParen :: gap.reverse ++ lexeme.text.reverse ++ before) inner = .ok list)
    (harguments : ∀ argument ∈ list.arguments.take builtin.operandCount,
      ∀ line, Accountable source line [] argument)
    (hbehind : Accountable source (line + newlines (callTail gap list))
      ((callTail gap list).reverse ++ lexeme.text.reverse ++ before) list.behind) :
    Accountable source line before (b :: rest) := by
  intro front back site hlexemes hline
  have hundivided' := hundivided
  rw [hlexemes] at hundivided'
  obtain ⟨first, more, hcut, hfirst, hmore, hnone⟩ :=
    exists_lexemes_of_call hundivided'.of_append.1.of_append.2 hnext hopening hjudge
  obtain ⟨accounts, hcall⟩ := exists_partAccounting_call hundivided hhash hnext hopening hjudge
    harguments hlexemes hline hcut hfirst hmore hnone site
  have hinside := textOf_insideOf_eq_inside hfirst hmore
  have htext : textOf (lexeme :: openingLexemes gap ++ insideOf first more ++
      [.mark Byte.closeParen]) = lexeme.text ++ callTail gap list := by
    simp [callTail, hinside, Lexeme.text]
  obtain ⟨others, hrest⟩ := hbehind (front ++ (lexeme :: openingLexemes gap ++
      insideOf first more ++ [.mark Byte.closeParen])) back
    ((Piece.call builtin gap list (outlineOperands (line + newlines gap)
      (list.arguments.take builtin.operandCount))).render site).2
    (by rw [hlexemes, hcut]; simp only [List.append_assoc, List.cons_append, List.nil_append])
    (by rw [textOf_append, htext, newlines_append, newlines_append,
      newlines_of_opening hopening, hline]; omega)
  have hend : (textOf (front ++ (lexeme :: openingLexemes gap ++ insideOf first more ++
      [.mark Byte.closeParen]))).length =
        (textOf front).length + lexeme.text.length + gap.length + 1 + list.inside.length + 1 := by
    rw [textOf_append, htext]
    simp only [callTail, List.length_append, List.length_cons, List.length_nil]
    omega
  have hstop : (textOf front).length + (b :: rest).length =
      (textOf front).length + lexeme.text.length + gap.length + 1 + list.inside.length + 1 +
        list.behind.length := by
    obtain ⟨-, -, hstart, hstop⟩ := lexemes_around_opening hnext hopening hlexemes hline
    have hwhole := congrArg List.length (append_of_judge hjudge)
    simp only [List.length_append, List.length_cons] at hwhole
    omega
  rw [hend, ← hstop] at hrest
  have hboth := hcall.append hrest (by omega) (by omega) (by omega)
  have hsource : (textOf front).length + (Piece.call builtin gap list (outlineOperands
      (line + newlines gap) (list.arguments.take builtin.operandCount))).source.length =
        (textOf front).length + lexeme.text.length + gap.length + 1 + list.inside.length + 1 := by
    rw [(opening?_eq_some.mp hopening).1]
    simp only [Piece.source, Lexeme.text, callTail, List.length_append, List.length_cons,
      List.length_nil]
    omega
  rw [outline_expanded hnext hopening hjudge, replacementsOf, List.map_append, hsource,
    callsOf_call (textOf front).length hnext hopening hcut, hinside]
  exact ⟨accounts ++ others, hboth⟩

end Outline

/-- Every outline of a part of a source accounts for the calls there. -/
theorem accountable {source : Bytes} (hundivided : Undivided (lexemes [] source))
    (hhash : .mark Byte.hash ∉ lexemes [] source) (line : Nat) (before text : Bytes) :
    Accountable source line before text := by
  induction line, before, text using outline_induction with
  | nil line before =>
    intro front back site hlexemes hline
    refine ⟨[], ?_⟩
    rw [lexemes_nil, outline]
    exact .empty source _ _ _
  | copied hnext hopening hbehind => exact .copied hnext hopening hbehind
  | kept hnext hopening hjudge hbehind => exact .kept hundivided hnext hopening hjudge hbehind
  | expanded hnext hopening hjudge harguments hbehind =>
    exact .expanded hundivided hhash hnext hopening hjudge harguments hbehind

/-- Every source gives account of its calls. -/
theorem exists_accounting {config : Config} {source : Bytes}
    (henabled : config.normalizeAtomics) (hundivided : Undivided (lexemes [] source))
    (hhash : .mark Byte.hash ∉ lexemes [] source) :
    ∃ accounts, Accounting config source (normalize config source) accounts := by
  have hnormalize : normalize config source =
      ⟨(renderPieces 0 (outline 1 [] source)).1,
        { expanded := expandedPieces (outline 1 [] source)
          kept := keptInPieces (outline 1 [] source) }⟩ := by
    simp only [normalize, Session.normalize, if_pos henabled]
  obtain ⟨accounts, hpart⟩ := accountable hundivided hhash 1 [] source [] [] 0 (by simp) rfl
  simp only [textOf_nil, List.length_nil, Nat.zero_add] at hpart
  rw [hnormalize]
  exact ⟨accounts, hpart.calls, hpart.fates, hpart.kept, hpart.rewritten, _,
    replaces_outline henabled 1 [] source source 0 rfl (wordsEnd_nil source), hpart.replaced⟩

/-- Every call that one scan of a source sees is rewritten, kept for a reason, or ignored with an
argument, and the rewritten calls around it decide which. The report lists the first two, each
once, and nothing else. -/
theorem existsUnique_accounting {config : Config} {source : Bytes}
    (henabled : config.normalizeAtomics) (hundivided : Undivided (lexemes [] source))
    (hhash : .mark Byte.hash ∉ lexemes [] source) :
    (codeCalls source).Pairwise (·.position < ·.position) ∧
      ∃! accounts, Accounting config source (normalize config source) accounts := by
  have hsorted := pairwise_callsOf 0 (lexemes [] source)
  obtain ⟨accounts, haccounting⟩ := exists_accounting henabled hundivided hhash
  refine ⟨hsorted, accounts, haccounting, fun others hothers => ?_⟩
  refine eq_of_fates [] (hothers.calls.trans haccounting.calls.symm) ?_ ?_ hothers.fates
    haccounting.fates
  · rw [hothers.calls]
    exact hsorted
  · rw [hothers.calls]
    exact fun call hcall => position_lt_inner_of_mem_callsOf hcall

/-- Calls in a directive, in a call and in an argument of it that is not needed. -/
def nestedCalls : Bytes :=
  ofString "#if __sync_synchronize()\n__sync_lock_release(p, __sync_synchronize())"

/-- Neither the call in the directive nor that in the argument is rewritten. -/
theorem accounting_nestedCalls :
    (codeCalls nestedCalls).Pairwise (·.position < ·.position) ∧
      ∃! accounts, Accounting {} nestedCalls (normalize {} nestedCalls) accounts :=
  existsUnique_accounting rfl (by decide +kernel) (by decide +kernel)

/-- A directive that is continued behind a carriage return. -/
def returnedDirective : Bytes := ofString "#define A \\\r\n__sync_synchronize()"

/-- A call that is cut where the argument ends that it begins in. -/
def cutCall : Bytes := ofString "__sync_fetch_and_add(p, __sync_synchronize(x], y))"

/-- A newline can belong to a directive without a backslash directly in front of it, and a call
can be kept as unterminated that is closed behind the argument it begins in. -/
theorem report_returnedDirective_cutCall :
    (returnedDirective =
        ofString "#define A \\\r" ++ Byte.newline :: ofString "__sync_synchronize()" ∧
      Byte.newline ∉ ofString "#define A \\\r" ∧
      (ofString "#define A \\\r").getLast? ≠ some Byte.backslash ∧
      codeCalls (ofString "__sync_synchronize()") = [⟨0, .synchronize, 19⟩] ∧
      (normalize {} returnedDirective).report = {}) ∧
    (Undivided (lexemes [] cutCall) ∧ .mark Byte.hash ∉ lexemes [] cutCall ∧
      ⟨24, .synchronize, 43⟩ ∈ codeCalls cutCall ∧
      splitArguments? 0 (cutCall.drop 43) =
        some ⟨ofString "x]", [ofString " y"], ofString ")"⟩ ∧
      (normalize {} cutCall).report.kept = [⟨1, .synchronize, .unterminated⟩]) := by
  decide +kernel

end PlainSync.Source
