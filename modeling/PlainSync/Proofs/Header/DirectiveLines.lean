import PlainSync.Proofs.Header.Preprocessor
import PlainSync.Proofs.Source.ClosedUnits
import PlainSync.Proofs.Source.Joined

/-!
# Lines of directives

A directive on one line ends with its line, and so does a comment that is closed on it. What a
text of such lines asks for is what its lines ask for, one after the other.
-/

namespace PlainSync.Header

open Source Bytes

/-! ## Lines -/

section Lines

variable {b : UInt8} {rest line : Bytes}

/-- No bytes of a kind stand in front of another one. -/
theorem span_of_head {p : UInt8 → Bool} (hrest : ∀ c ∈ rest.head?, p c = false) :
    rest.takeWhile p = [] ∧ rest.dropWhile p = rest := by
  cases rest with
  | nil => exact ⟨rfl, rfl⟩
  | cons c rest =>
    simp only [List.takeWhile_cons, List.dropWhile_cons, hrest c rfl, Bool.false_eq_true, if_false,
      and_self]

/-- Outside comments, literals and directives C reads what the scan of a source does. -/
theorem nextUnit_of_isPlain (hb : isPlain b) (before rest : Bytes) :
    nextUnit b rest = nextLexeme before b rest := by
  obtain ⟨-, -, hdouble, hquote, hhash, -⟩ := ne_of_isPlain hb
  simp only [nextUnit, nextLexeme, hdouble, hquote, hhash, or_self, false_and, if_false,
    splitTrivia?_of_isPlain hb]

/-- A unit and what stands behind it make up the text. -/
theorem append_nextUnit (hb : isPlain b) (rest : Bytes) :
    (nextUnit b rest).1.text ++ (nextUnit b rest).2 = b :: rest := by
  rw [nextUnit_of_isPlain hb []]
  exact append_of_nextLexeme rfl

/-- What stands behind a unit of a plain text is plain. -/
theorem plain_nextUnit {more : Bytes} (hplain : Plain (b :: more)) : Plain (nextUnit b more).2 := by
  rw [← append_nextUnit (plain_cons.mp hplain).1 more] at hplain
  exact (plain_append.mp hplain).2

/-- The first unit of a plain text is read alike in front of a byte that separates. -/
theorem nextUnit_plain_append {more : Bytes} (hplain : Plain (b :: more))
    (hrest : ∀ c ∈ rest.head?, separates c) :
    nextUnit b (more ++ rest) = ((nextUnit b more).1, (nextUnit b more).2 ++ rest) := by
  obtain ⟨hb, hmore⟩ := plain_cons.mp hplain
  obtain ⟨-, -, hdouble, hquote, -, -⟩ := ne_of_isPlain hb
  simp only [nextUnit, hdouble, hquote, or_self, if_false, splitTrivia?_of_isPlain hb]
  by_cases hdigit : Byte.isDigit b
  · rw [if_pos hdigit, if_pos hdigit]
    by_cases hstop : (splitNumberBody b more).2 = []
    · have hwhole := splitNumberBody_append b more
      rw [hstop, List.append_nil] at hwhole
      have hbody : splitNumberBody b (more ++ []) = (more, []) := by
        rw [List.append_nil]
        exact Prod.ext hwhole hstop
      rw [splitNumberBody_exchange (fun previous _ => splitNumberBody_of_separates previous hrest)
        hbody, hwhole, hstop, List.nil_append]
    · rw [splitNumberBody_plain_append rest hmore hstop]
  · rw [if_neg hdigit, if_neg hdigit]
    by_cases hstarts : Byte.startsIdentifier b
    · rw [if_pos hstarts, if_pos hstarts]
      by_cases hstop : more.dropWhile Byte.continuesIdentifier = []
      · have hall := List.dropWhile_eq_nil_iff.mp hstop
        have hends := span_of_head (p := Byte.continuesIdentifier) fun c hc =>
          (ne_of_separates (hrest c hc)).2.2.2.2
        rw [List.takeWhile_append_of_pos hall, List.dropWhile_append_of_pos hall, hends.1, hends.2,
          hstop, List.takeWhile_eq_self_iff.mpr hall, List.append_nil, List.nil_append]
      · obtain ⟨htake, hdrop⟩ := takeWhile_append_of_stop rest hstop
        rw [htake, hdrop]
    · rw [if_neg hstarts, if_neg hstarts]

/-- A directive goes on behind a plain text. -/
theorem splitDirectiveLine_plain_append {front : Bytes} (hplain : Plain front)
    (hrest : ∀ c ∈ rest.head?, separates c) :
    splitDirectiveLine (front ++ rest) =
      (front ++ (splitDirectiveLine rest).1, (splitDirectiveLine rest).2) := by
  match front with
  | [] => rfl
  | b :: more =>
    have hshorter := length_nextUnit_lt b more
    have hnext := nextUnit_plain_append hplain hrest
    have hb := (plain_cons.mp hplain).1
    obtain ⟨hline, -⟩ := ne_of_isPlain hb
    rw [List.cons_append, splitDirectiveLine, if_neg hline, hnext,
      splitDirectiveLine_plain_append (plain_nextUnit hplain) hrest, ← List.append_assoc,
      append_nextUnit hb]
termination_by front.length
decreasing_by exact hshorter

/-- A line that is read by itself, whatever stands behind its end. -/
structure ReadsAlone (line : Bytes) : Prop where
  newline_notMem : Byte.newline ∉ line
  getLast?_ne : line.getLast? ≠ some Byte.backslash
  units_append (rest : Bytes) : units true (line ++ Byte.newline :: rest) =
    units true line ++ .mark Byte.newline :: units true rest

/-- A newline is a unit, and a line begins behind it. -/
theorem units_newline (fresh : Bool) (rest : Bytes) :
    units fresh (Byte.newline :: rest) = .mark Byte.newline :: units true rest := by
  rw [units, if_neg (fun hhash => absurd hhash.1 (by decide)),
    nextUnit_of_isWhiteSpace (by decide)]
  rfl

/-- The empty line is read alone. -/
theorem readsAlone_nil : ReadsAlone [] where
  newline_notMem := List.not_mem_nil
  getLast?_ne := nofun
  units_append rest := by
    rw [List.nil_append, units_newline, units.eq_1, List.nil_append]

/-- A block comment is one unit. -/
theorem nextUnit_blockComment_append {body : Bytes} (hbody : KeepsOpen body) (rest : Bytes) :
    nextUnit Byte.slash ((blockComment body).tail ++ rest) =
      (.trivia (blockComment body), rest) := by
  have hquote : ¬ (Byte.slash = Byte.doubleQuote ∨ Byte.slash = Byte.quote) := by decide
  have hcomment : splitTrivia? (Byte.slash :: ((blockComment body).tail ++ rest)) =
      some (blockComment body, rest) := splitTrivia?_blockComment hbody rest
  rw [nextUnit, if_neg hquote, hcomment]

/-- A block comment at the start of a line leaves it one. -/
theorem units_blockComment_append {body : Bytes} (hbody : KeepsOpen body) (rest : Bytes) :
    units true (blockComment body ++ rest) = .trivia (blockComment body) :: units true rest := by
  have hhash : ¬ (Byte.slash = Byte.hash ∧ true = true) := by decide
  have hcons : blockComment body ++ rest = Byte.slash :: ((blockComment body).tail ++ rest) := rfl
  rw [hcons, units, if_neg hhash, nextUnit_blockComment_append hbody]
  rfl

/-- A block comment whose body is on one line is on one line. -/
theorem newline_notMem_blockComment {body : Bytes} (hnewline : Byte.newline ∉ body) :
    Byte.newline ∉ blockComment body := by
  simp only [blockComment, List.mem_cons, List.mem_append, hnewline, List.not_mem_nil]
  decide

/-- A block comment ends with a slash. -/
theorem getLast?_blockComment (body : Bytes) :
    (blockComment body).getLast? = some Byte.slash := by
  have hends : blockComment body =
      (Byte.slash :: Byte.star :: (body ++ [Byte.star])) ++ [Byte.slash] := by
    simp [blockComment]
  rw [hends, List.getLast?_concat]

/-- A comment on a line of its own. -/
theorem readsAlone_blockComment {body : Bytes} (hbody : KeepsOpen body)
    (hnewline : Byte.newline ∉ body) : ReadsAlone (blockComment body) := by
  refine ⟨newline_notMem_blockComment hnewline, ?_, fun rest => ?_⟩
  · rw [getLast?_blockComment]
    decide
  · have hnothing := units_blockComment_append hbody []
    rw [List.append_nil, units.eq_1] at hnothing
    rw [units_blockComment_append hbody, hnothing, units_newline]
    rfl

/-- A directive on a line of its own. -/
theorem readsAlone_directive {content : Bytes} (hnewline : Byte.newline ∉ content)
    (hlast : (Byte.hash :: content).getLast? ≠ some Byte.backslash)
    (hsplit : ∀ rest : Bytes, (∀ c ∈ rest.head?, c = Byte.newline) →
      splitDirectiveLine (content ++ rest) = (content, rest)) :
    ReadsAlone (Byte.hash :: content) := by
  have hdirective (rest : Bytes) (hrest : ∀ c ∈ rest.head?, c = Byte.newline) :
      units true (Byte.hash :: (content ++ rest)) =
        .directive (Byte.hash :: content) :: units false rest := by
    rw [units, if_pos ⟨rfl, rfl⟩, hsplit rest hrest]
  refine ⟨?_, hlast, fun rest => ?_⟩
  · rw [List.mem_cons, not_or]
    exact ⟨by decide, hnewline⟩
  · have hnothing := hdirective [] (by rintro c ⟨⟩)
    rw [List.append_nil, units.eq_1] at hnothing
    have hend : ∀ c ∈ (Byte.newline :: rest).head?, c = Byte.newline := by
      rintro c ⟨⟩
      rfl
    rw [List.cons_append, hdirective _ hend, hnothing, units_newline]
    rfl

/-- A directive line ends at a newline. -/
theorem splitDirectiveLine_of_newline (hrest : ∀ c ∈ rest.head?, c = Byte.newline) :
    splitDirectiveLine rest = ([], rest) := by
  cases rest with
  | nil => rw [splitDirectiveLine]
  | cons c rest => rw [splitDirectiveLine, if_pos (hrest c rfl)]

/-- A plain directive line that does not go on is read alone. -/
theorem readsAlone_plain {content : Bytes} (hplain : Plain content)
    (hlast : (Byte.hash :: content).getLast? ≠ some Byte.backslash) :
    ReadsAlone (Byte.hash :: content) := by
  refine readsAlone_directive (fun hmem => absurd (hplain _ hmem) (by decide)) hlast
    fun rest hrest => ?_
  have hseparates : ∀ c ∈ rest.head?, separates c := fun c hc => by
    rw [hrest c hc]
    decide
  rw [splitDirectiveLine_plain_append hplain hseparates, splitDirectiveLine_of_newline hrest,
    List.append_nil]

/-- A directive with a comment behind it. -/
theorem readsAlone_commented {content body : Bytes} (hplain : Plain content)
    (hbody : KeepsOpen body) (hnewline : Byte.newline ∉ body) :
    ReadsAlone (Byte.hash :: (content ++ Byte.space :: blockComment body)) := by
  refine readsAlone_directive ?_ ?_ fun rest hrest => ?_
  · have hcontent : Byte.newline ∉ content := fun hmem => absurd (hplain _ hmem) (by decide)
    rw [List.mem_append, List.mem_cons, not_or, not_or]
    exact ⟨hcontent, by decide, newline_notMem_blockComment hnewline⟩
  · rw [← List.cons_append, List.getLast?_append, List.getLast?_cons, getLast?_blockComment,
      Option.some_or]
    decide
  · have hseparates : ∀ c ∈ (Byte.space :: (blockComment body ++ rest)).head?, separates c :=
      fun c hc => Option.some.inj hc ▸ by decide
    have hcomment : splitDirectiveLine (blockComment body ++ rest) = (blockComment body, rest) := by
      have hcons : blockComment body ++ rest =
          Byte.slash :: ((blockComment body).tail ++ rest) := rfl
      rw [hcons, splitDirectiveLine, if_neg (by decide), nextUnit_blockComment_append hbody,
        splitDirectiveLine_of_newline hrest]
      exact Prod.ext (List.append_nil _) rfl
    rw [List.append_assoc, List.cons_append, splitDirectiveLine_plain_append hplain hseparates,
      splitDirectiveLine, if_neg (by decide), nextUnit_of_isWhiteSpace (by decide), hcomment]
    rfl

/-- Nothing of a plain unit is blanked. -/
theorem blankedText_nextUnit (hb : isPlain b) (rest : Bytes) :
    blankedText (nextUnit b rest).1 = (nextUnit b rest).1.text := by
  rw [nextUnit_of_isPlain hb []]
  cases hnext : nextLexeme [] b rest with
  | mk unit behind =>
    cases firstLexeme hnext with
    | trivia htrivia =>
      rw [splitTrivia?_of_isPlain hb] at htrivia
      cases htrivia
    | _ => rfl

/-- Plain text has no comments. -/
theorem uncommented_of_plain {text : Bytes} (hplain : Plain text) : uncommented text = text := by
  match text with
  | [] => rw [uncommented, unitsOf, List.flatMap_nil]
  | b :: more =>
    have hshorter := length_nextUnit_lt b more
    have hb := (plain_cons.mp hplain).1
    have ih := uncommented_of_plain (plain_nextUnit hplain)
    rw [uncommented] at ih ⊢
    rw [unitsOf, List.flatMap_cons, blankedText_nextUnit hb, ih, append_nextUnit hb]
termination_by text.length
decreasing_by exact hshorter

/-- A plain directive is read as it stands. -/
theorem instructionsOf_plain {content : Bytes} (hplain : Plain content) :
    instructionsOf (Byte.hash :: content) = [Instruction.ofLine? (strip content)] := by
  have hsplit : splitDirectiveLine (content ++ []) = _ :=
    splitDirectiveLine_plain_append hplain nofun
  have hends : splitDirectiveLine [] = ([], []) := splitDirectiveLine_of_newline nofun
  rw [hends, List.append_nil] at hsplit
  rw [instructionsOf, units, if_pos ⟨rfl, rfl⟩, hsplit, units.eq_1]
  have hread : Instruction.ofDirective? (Byte.hash :: content) =
        Instruction.ofLine? (strip content) := by
    rw [Instruction.ofDirective?, List.tail_cons, uncommented_of_plain hplain]
  rw [← hread]
  rfl

/-- The directives of lines that are read by themselves. -/
theorem instructionsOf_flatMap {list : List Bytes} (hlines : ∀ line ∈ list, ReadsAlone line) :
    instructionsOf (unspliced (list.flatMap fun line => line ++ [Byte.newline])) =
      list.flatMap instructionsOf := by
  induction list with
  | nil =>
    rw [List.flatMap_nil, List.flatMap_nil, instructionsOf, unspliced, units.eq_1]
    rfl
  | cons line more ih =>
    obtain ⟨hline, hmore⟩ := List.forall_mem_cons.mp hlines
    have hsplice (rest : Bytes) : ¬ SplicedAt line rest := fun hsplice =>
      hline.getLast?_ne hsplice.1
    rw [List.flatMap_cons, List.flatMap_cons, ← ih hmore, List.append_assoc, List.singleton_append,
      unspliced_append (hsplice _), unspliced_of_not_mem hline.newline_notMem,
      unspliced_cons (not_splicedAt_of_ne (by decide) _)]
    simp only [instructionsOf, hline.units_append, List.filterMap_append, List.map_append,
      List.filterMap_cons, directive?]

end Lines

/-- Lines that are read by themselves, with what their directives ask for. -/
structure Asks (lines : List Bytes) (instructions : List (Option Instruction)) : Prop where
  readsAlone : ∀ line ∈ lines, ReadsAlone line
  instructions_eq : lines.flatMap instructionsOf = instructions

section Asks

variable {line body : Bytes}

/-- Lines ask for what each of them asks for. -/
theorem Asks.append {lines lines' : List Bytes}
    {instructions instructions' : List (Option Instruction)} (hlines : Asks lines instructions)
    (hlines' : Asks lines' instructions') :
    Asks (lines ++ lines') (instructions ++ instructions') where
  readsAlone := List.forall_mem_append.mpr ⟨hlines.readsAlone, hlines'.readsAlone⟩
  instructions_eq := by
    rw [List.flatMap_append, hlines.instructions_eq, hlines'.instructions_eq]

/-- A line that is read alone asks for its instructions. -/
theorem asks_singleton {instructions : List (Option Instruction)} (hline : ReadsAlone line)
    (hinstructions : instructionsOf line = instructions) : Asks [line] instructions where
  readsAlone := List.forall_mem_singleton.mpr hline
  instructions_eq := by rw [List.flatMap_singleton, hinstructions]

/-- No lines ask for nothing. -/
theorem asks_nil : Asks [] [] := ⟨List.forall_mem_nil _, rfl⟩

/-- A blank line asks for nothing. -/
theorem asks_blank : Asks [[]] [] := by
  refine asks_singleton readsAlone_nil ?_
  rw [instructionsOf, units.eq_1]
  rfl

/-- A line with a block comment asks for nothing. -/
theorem asks_blockComment (body : Bytes)
    (hline : line = blockComment body ∧ KeepsOpen body ∧ Byte.newline ∉ body) :
    Asks [line] [] := by
  obtain ⟨rfl, hbody, hnewline⟩ := hline
  refine asks_singleton (readsAlone_blockComment hbody hnewline) ?_
  have hunits := units_blockComment_append hbody []
  rw [List.append_nil, units.eq_1] at hunits
  rw [instructionsOf, hunits]
  rfl

/-- A line that is a directive without comments. -/
theorem asks_plain {instruction? : Option Instruction}
    (hline : line.head? = some Byte.hash ∧ Plain line.tail ∧
      line.getLast? ≠ some Byte.backslash ∧ Instruction.ofLine? (strip line.tail) = instruction?) :
    Asks [line] [instruction?] := by
  obtain ⟨hhead, hplain, hlast, rfl⟩ := hline
  obtain ⟨content, rfl⟩ := List.head?_eq_some_iff.mp hhead
  exact asks_singleton (readsAlone_plain hplain hlast) (instructionsOf_plain hplain)

/-- A directive with a comment behind it. -/
theorem asks_commented {instruction? : Option Instruction} (content body : Bytes)
    (hline : line = Byte.hash :: (content ++ Byte.space :: blockComment body) ∧ Plain content ∧
      KeepsOpen body ∧ Byte.newline ∉ body ∧ instructionsOf line = [instruction?]) :
    Asks [line] [instruction?] := by
  obtain ⟨rfl, hcontent, hbody, hnewline, hinstruction⟩ := hline
  exact asks_singleton (readsAlone_commented hcontent hbody hnewline) hinstruction

/-- A text of such lines is read line by line. -/
theorem Asks.instructionsOf_eq {lines : List Bytes}
    {instructions : List (Option Instruction)} (hlines : Asks lines instructions) :
    instructionsOf (unspliced (lines.flatMap fun line => line ++ [Byte.newline])) =
      instructions := by
  rw [instructionsOf_flatMap hlines.readsAlone, hlines.instructions_eq]

end Asks

/-! ## Lines that define -/

section Define

variable {text name behind body : Bytes}

/-- A text that no white space begins or ends is not stripped. -/
theorem strip_eq_self (hhead : ∀ b ∈ text.head?, isSpace b = false)
    (hlast : ∀ b ∈ text.getLast?, isSpace b = false) : strip text = text := by
  rw [strip, (span_of_head hhead).2, List.rdropWhile_eq_self_iff]
  intro hne
  simp [hlast _ (List.getLast?_eq_some_getLast hne)]

/-- A text with no space at its ends is stripped already. -/
theorem strip_of_ends {first last : UInt8} (hhead : text.head? = some first)
    (hlast : text.getLast? = some last) (hends : isSpace first = false ∧ isSpace last = false) :
    strip text = text := by
  refine strip_eq_self ?_ ?_
  · rw [hhead]
    rintro b ⟨⟩
    exact hends.1
  · rw [hlast]
    rintro b ⟨⟩
    exact hends.2

/-- A space in front of a text is stripped. -/
theorem strip_space (text : Bytes) : strip (Byte.space :: text) = strip text := by
  rw [strip, List.dropWhile_cons_of_pos (by decide), strip]

/-- No byte of an identifier is a space. -/
theorem isSpace_of_continuesIdentifier {b : UInt8} (hb : Byte.continuesIdentifier b) :
    isSpace b = false := by
  rw [Bool.eq_false_iff]
  intro hspace
  simp only [isSpace, Byte.isWhiteSpace, Bool.or_eq_true, decide_eq_true_eq] at hspace
  rcases hspace with ((((rfl | rfl) | rfl) | rfl) | rfl) | rfl
  all_goals exact absurd hb (by decide)

/-- A name is defined by what stands behind it. -/
theorem ofLine?_define (hname : name ≠ [] ∧ WordBytes name)
    (hbehind : ∀ b ∈ behind.head?, Byte.continuesIdentifier b = false)
    (hlast : ∀ b ∈ (name ++ behind).getLast?, isSpace b = false) :
    Instruction.ofLine? (strip (ofString "define " ++ (name ++ behind))) =
      some (.sets name (some (.ofText behind))) := by
  obtain ⟨hne, hword⟩ := hname
  have hkeyword : ∀ b ∈ ofString "define", Byte.continuesIdentifier b := List.all_eq_true.mp rfl
  have hspace : Byte.continuesIdentifier Byte.space = false := by decide
  have hline : ofString "define " ++ (name ++ behind) =
      ofString "define" ++ Byte.space :: (name ++ behind) := rfl
  have hends := span_of_head hbehind
  have hhead : ∀ b ∈ (name ++ behind).head?, isSpace b = false := by
    rw [List.head?_append_of_ne_nil name hne]
    exact fun b hb => isSpace_of_continuesIdentifier (hword b (List.mem_of_head? hb))
  have hfirst : ∀ b ∈ (ofString "define " ++ (name ++ behind)).head?, isSpace b = false := by
    rw [List.head?_append_of_ne_nil _ (by decide)]
    rintro b ⟨⟩
    decide
  have hwhole : strip (ofString "define " ++ (name ++ behind)) =
      ofString "define " ++ (name ++ behind) := by
    refine strip_eq_self hfirst ?_
    rwa [List.getLast?_append_of_ne_nil _ (List.append_ne_nil_of_left_ne_nil hne behind)]
  have hoperand : strip (Byte.space :: (name ++ behind)) = name ++ behind := by
    rw [strip_space, strip_eq_self hhead hlast]
  rw [hwhole, hline]
  simp only [Instruction.ofLine?, List.takeWhile_append_of_pos hkeyword,
    List.dropWhile_append_of_pos hkeyword, List.takeWhile_cons, List.dropWhile_cons, hspace,
    Bool.false_eq_true, if_false, List.append_nil, hoperand, List.takeWhile_append_of_pos hword,
    List.dropWhile_append_of_pos hword, hends, hne]
  rfl

/-- A line that defines a name. -/
theorem asks_define (hname : name ≠ [] ∧ WordBytes name)
    (hplain : Plain behind) (hbehind : ∀ b ∈ behind.head?, Byte.continuesIdentifier b = false)
    (hlast : ∀ b ∈ (name ++ behind).getLast?, isSpace b = false ∧ b ≠ Byte.backslash) :
    Asks [ofString "#define " ++ (name ++ behind)]
      [some (.sets name (some (.ofText behind)))] := by
  have hline : (ofString "#define " ++ (name ++ behind)).tail =
      ofString "define " ++ (name ++ behind) := rfl
  have hplain' : Plain (ofString "define " ++ (name ++ behind)) := by
    have hword : Plain name := plain_of_joinsWord fun b hb => by simp [joinsWord, hname.2 b hb]
    exact plain_append.mpr ⟨by decide, plain_append.mpr ⟨hword, hplain⟩⟩
  have hends : (ofString "#define " ++ (name ++ behind)).getLast? ≠ some Byte.backslash := by
    rw [List.getLast?_append_of_ne_nil _ (List.append_ne_nil_of_left_ne_nil hname.1 behind)]
    exact fun hend => (hlast _ hend).2 rfl
  have hread := ofLine?_define hname hbehind fun b hb => (hlast b hb).1
  rw [← hline] at hplain' hread
  exact asks_plain ⟨rfl, hplain', hends, hread⟩

/-- A name that is defined without parameters. -/
theorem ofText_space (hbody : strip body = body) :
    Replacement.ofText (Byte.space :: body) = ⟨none, body⟩ := by
  rw [Replacement.ofText, if_neg (by decide), strip_space, hbody]

/-- A name that is defined with parameters. -/
theorem ofText_openParen {written : Bytes} (hwritten : Byte.closeParen ∉ written)
    (hbody : strip body = body) :
    Replacement.ofText (Byte.openParen :: (written ++ Byte.closeParen :: Byte.space :: body)) =
      ⟨some (((written.splitOnP (· = Byte.comma)).map strip).filter (· ≠ [])), body⟩ := by
  have hall : ∀ b ∈ written, decide (b ≠ Byte.closeParen) = true := fun b hb =>
    decide_eq_true fun hsame => hwritten (hsame ▸ hb)
  simp only [Replacement.ofText, if_true, List.takeWhile_append_of_pos hall,
    List.dropWhile_append_of_pos hall, List.takeWhile_cons, List.dropWhile_cons, ne_eq,
    not_true_eq_false, decide_false, Bool.false_eq_true, if_false, List.append_nil, List.tail_cons,
    strip_space, hbody]

end Define

end PlainSync.Header
