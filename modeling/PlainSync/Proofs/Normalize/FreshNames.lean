import PlainSync.Proofs.Normalize.SiteNumbers
import PlainSync.Proofs.Source.Identifiers

/-!
# Fresh names

An operand has only the identifiers of its source and the names of temporaries of earlier sites.
So no expansion declares a name that one of its operands has, unless the source has it.
-/

namespace PlainSync.Source

open Bytes Reading

/-- What the names of all temporaries begin with. -/
def reservedStem : Bytes := ofString "__centrinel_"

/-- A word that could be the name of a temporary. -/
def Reserved (word : Bytes) : Prop := reservedStem <+: word

instance (word : Bytes) : Decidable (Reserved word) :=
  inferInstanceAs (Decidable (reservedStem <+: word))

/-- No reserved word is empty. -/
theorem Reserved.ne_nil {word : Bytes} (hword : Reserved word) : word ≠ [] := by
  rintro rfl
  exact absurd hword (by decide)

/-- The names of temporaries are reserved. -/
theorem reserved_temporaryName (site : Nat) (name : Temporary) :
    Reserved (temporaryName site name) := by
  rw [temporaryName_eq]
  refine List.IsPrefix.trans ?_ (List.prefix_append _ _)
  cases name <;> decide

/-- The name of a temporary of a site in front of `site`. -/
def Generated (site : Nat) (word : Bytes) : Prop :=
  ∃ earlier < site, ∃ name, word = temporaryName earlier name

/-- A name of an earlier site is one of those in front of a later site too. -/
theorem Generated.mono {site site' : Nat} {word : Bytes} (hword : Generated site word)
    (hle : site ≤ site') : Generated site' word := by
  obtain ⟨earlier, hless, hname⟩ := hword
  exact ⟨earlier, Nat.lt_of_lt_of_le hless hle, hname⟩

/-! ## Words of an expansion -/

/-- The places of a template stand between bytes of no identifier. -/
def slotsSeparated : List Symbol → Bool
  | [] => true
  | .byte b :: more =>
    !(Byte.continuesIdentifier b && more.head?.any isSlot) && slotsSeparated more
  | .slot _ :: more => !more.head?.any isSlot && !Reading.joinsWord more && slotsSeparated more

/-- The text of a template with a space in every place. -/
def spaced (symbols : List Symbol) : Bytes := symbols.map fun symbol => symbol.byte?.getD Byte.space

/-- A template has no reserved word of its own, and nothing in a place joins it. -/
theorem template_words (builtin : Builtin) :
    slotsSeparated (template builtin) ∧
      ∀ word ∈ wordsOf (spaced (template builtin)), ¬ Reserved word := by
  cases builtin with
  | fetchAndOp update | opAndFetch update => cases update <;> decide +kernel
  | _ => decide +kernel

/-- The words of a filled template are its own and those of what it is filled with. -/
theorem mem_wordsOf_fill {operands : Operands} {names : Temporaries} {symbols : List Symbol}
    {word : Bytes} (hseparated : slotsSeparated symbols) (hword : word ≠ []) (front : Bytes)
    (hfront : symbols.head?.any isSlot → Wordless front.getLast?.toList)
    (hmem : word ∈ wordsOf (front ++ fill operands names symbols)) :
    word ∈ wordsOf (front ++ spaced symbols) ∨
      ∃ place, .slot place ∈ symbols ∧ word ∈ wordsOf (place.text operands names) := by
  induction symbols generalizing front with
  | nil => exact .inl hmem
  | cons symbol more ih =>
    cases symbol with
    | byte b =>
      rw [slotsSeparated, Bool.and_eq_true] at hseparated
      have hfill : front ++ fill operands names (.byte b :: more) =
          (front ++ [b]) ++ fill operands names more := by
        rw [List.append_assoc]
        rfl
      have hspaced : front ++ spaced (.byte b :: more) = (front ++ [b]) ++ spaced more := by
        rw [List.append_assoc]
        rfl
      rw [hfill] at hmem
      rw [hspaced]
      refine (ih hseparated.2 (front ++ [b]) (fun hslot => ?_) hmem).imp_right ?_
      · simpa [hslot, Wordless] using hseparated.1
      · rintro ⟨place, hplace, hin⟩
        exact ⟨place, List.mem_cons_of_mem _ hplace, hin⟩
    | slot place =>
      simp only [slotsSeparated, Bool.and_eq_true] at hseparated
      obtain ⟨⟨hnext, hjoins⟩, hmore⟩ := hseparated
      have hends : WordsEnd front.reverse
          (place.text operands names ++ fill operands names more) := by
        intro b hb c _ hcontinues
        rw [List.head?_reverse] at hb
        rw [hfront rfl b (by simp [Option.mem_def.mp hb])] at hcontinues
        cases hcontinues
      have hbehind : WordsEnd (place.text operands names).reverse
          (fill operands names more) := by
        intro b _ c hc _
        match more with
        | [] => cases hc
        | .slot _ :: _ => cases hnext
        | .byte d :: _ =>
          cases hc
          simpa [Reading.joinsWord] using hjoins
      have hfill : fill operands names (.slot place :: more) =
          place.text operands names ++ fill operands names more := rfl
      have hspaced : spaced (.slot place :: more) = Byte.space :: spaced more := rfl
      rw [hfill, mem_wordsOf_append hends hword, mem_wordsOf_append hbehind hword] at hmem
      rw [hspaced, mem_wordsOf_append_cons (by decide)]
      rcases hmem with hmem | hmem | hmem
      · exact .inl (.inl hmem)
      · exact .inr ⟨place, List.mem_cons_self, hmem⟩
      · rcases ih hmore [] (fun hslot => by simp [hslot] at hnext) hmem with hin | hslot
        · exact .inl (.inr hin)
        · obtain ⟨other, hother, hin⟩ := hslot
          exact .inr ⟨other, List.mem_cons_of_mem _ hother, hin⟩

/-- A reserved word of a replacement stands in an operand or is a name that the site declares. -/
theorem mem_wordsOf_of_text {call : Rewriting} {word : Bytes} (hreserved : Reserved word)
    (hmem : word ∈ wordsOf call.text) :
    (∃ text ∈ call.operandTexts, word ∈ wordsOf text) ∨ Generated (call.number + 1) word := by
  obtain ⟨hseparated, hown⟩ := template_words call.builtin
  have hnames (name : Temporary) (hname : word ∈ wordsOf (temporaryName call.number name)) :
      Generated (call.number + 1) word := by
    rw [wordsOf_of_wordBytes (wordBytes_temporaryName _ _), List.mem_singleton] at hname
    exact ⟨call.number, Nat.lt_succ_self _, name, hname⟩
  have hpadding (count : Nat) : Wordless (List.replicate count Byte.newline) := by
    intro b hb
    rw [List.eq_of_mem_replicate hb]
    decide
  have hends (before : Bytes) (count : Nat) :
      WordsEnd before (List.replicate count Byte.newline) :=
    wordsEnd_of_newline fun _ hc => List.eq_of_mem_replicate (List.mem_of_mem_head? hc)
  rw [call.text_eq_numbered, padLines, mem_wordsOf_append (hends _ _) hreserved.ne_nil,
    ← fill_template] at hmem
  rcases hmem with hmem | hmem
  · rcases mem_wordsOf_fill hseparated hreserved.ne_nil [] (fun _ => wordless_nil) hmem with
      hin | hslot
    · exact absurd hreserved (hown word hin)
    · obtain ⟨place, -, hin⟩ := hslot
      cases place with
      | pointer => exact .inl ⟨_, List.mem_cons_self, hin⟩
      | pointerType => exact .inl ⟨_, List.mem_cons_of_mem _ List.mem_cons_self, hin⟩
      | pointerName => exact .inr (hnames .pointer hin)
      | savedName => exact .inr (hnames .saved hin)
      | value index =>
        cases hvalue : (callOperands call.texts).values[index]? with
        | none => simp [Slot.text, hvalue, wordsOf_nil, hreserved.ne_nil] at hin
        | some value =>
          simp only [Slot.text, hvalue, Option.getD_some] at hin
          exact .inl ⟨value, by simp [Rewriting.operandTexts, List.mem_of_getElem? hvalue], hin⟩
  · exact absurd (eq_nil_of_mem_wordsOf (hpadding _) hmem) hreserved.ne_nil

/-- A word of an operand's text is a word of what the operand is rendered from. -/
theorem exists_mem_texts {call : Rewriting} {text word : Bytes} (htext : text ∈ call.operandTexts)
    (hmem : word ∈ wordsOf text) (hword : word ≠ []) :
    ∃ operand ∈ call.texts, word ∈ wordsOf operand := by
  have hpointer (hin : word ∈ wordsOf (callOperands call.texts).pointer) :
      ∃ operand ∈ call.texts, word ∈ wordsOf operand := by
    cases htexts : call.texts with
    | nil => simp [callOperands, htexts, wordsOf_nil, hword] at hin
    | cons pointer values =>
      simp only [callOperands, htexts, List.head?_cons, Option.getD_some] at hin
      exact ⟨pointer, List.mem_cons_self, hin⟩
  rw [Rewriting.operandTexts, List.mem_cons, List.mem_cons] at htext
  rcases htext with rfl | rfl | hvalue
  · exact hpointer hmem
  · exact hpointer (mem_wordsOf_of_onOneLine hmem hword)
  · exact ⟨text, List.mem_of_mem_tail hvalue, hmem⟩

/-! ## Words of a normalized source -/

/-- The reserved words of an outline that is rendered behind `front`, and those of the operands of
its calls, are words of the text or names of earlier sites. -/
structure WordsKept (line : Nat) (before text : Bytes) : Prop where
  rendered : ∀ site front, WordsEnd front.reverse text → ∀ word, Reserved word →
    word ∈ wordsOf (front ++ (renderPieces site (outline line before text)).1) →
    word ∈ wordsOf (front ++ text) ∨
      Generated (renderPieces site (outline line before text)).2 word
  operands : ∀ site, ∀ call ∈ rewritings site (outline line before text),
    ∀ operand ∈ call.operandTexts, ∀ word, Reserved word → word ∈ wordsOf operand →
      word ∈ wordsOf text ∨ Generated call.number word

/-- The reserved words of rendered operands. -/
theorem mem_wordsOf_of_renderOperands {arguments : List Bytes}
    (hall : ∀ argument ∈ arguments, ∀ line, WordsKept line [] argument) (line site : Nat)
    {text word : Bytes} (htext : text ∈ (renderOperands site (outlineOperands line arguments)).1)
    (hreserved : Reserved word) (hmem : word ∈ wordsOf text) :
    (∃ argument ∈ arguments, word ∈ wordsOf argument) ∨
      Generated (renderOperands site (outlineOperands line arguments)).2 word := by
  induction arguments generalizing line site with
  | nil =>
    rw [outlineOperands] at htext
    cases htext
  | cons argument more ih =>
    rw [outlineOperands, renderOperands] at htext ⊢
    rcases List.mem_cons.mp htext with rfl | hmore
    · have hrendered := (hall argument List.mem_cons_self line).rendered site []
        (wordsEnd_nil argument) word hreserved
        (mem_wordsOf_of_operandText hmem hreserved.ne_nil)
      refine hrendered.imp (fun hin => ⟨argument, List.mem_cons_self, hin⟩) fun hname => ?_
      refine hname.mono ?_
      rw [snd_renderOperands]
      exact Nat.le_add_right _ _
    · have hrest := ih (fun other hother => hall other (List.mem_cons_of_mem _ hother)) _ _ hmore
      refine hrest.imp_left ?_
      rintro ⟨other, hother, hin⟩
      exact ⟨other, List.mem_cons_of_mem _ hother, hin⟩

section Outline

variable {line line' : Nat} {before rest behind gap inner : Bytes} {b : UInt8} {lexeme : Lexeme}
  {builtin : Builtin} {list : ArgumentList}

/-- No identifier goes on behind a lexeme, whatever stands in front of it. -/
theorem wordsEnd_behind (hnext : nextLexeme before b rest = (lexeme, behind)) (front : Bytes) :
    WordsEnd (front ++ lexeme.text).reverse behind := by
  obtain ⟨text, htext, -⟩ := exists_text_eq_cons hnext
  have hends := wordsEnd_of_nextLexeme hnext
  intro c hc
  refine hends c ?_
  rw [List.reverse_append, List.head?_append, List.head?_reverse, htext,
    List.getLast?_eq_some_getLast (List.cons_ne_nil b text)] at hc
  rw [List.head?_append, List.head?_reverse, htext,
    List.getLast?_eq_some_getLast (List.cons_ne_nil b text)]
  exact hc

/-- A lexeme that is copied adds no word. -/
theorem WordsKept.copied {piece : Piece} (hnext : nextLexeme before b rest = (lexeme, behind))
    (houtline : outline line before (b :: rest) =
      piece :: outline line' (lexeme.text.reverse ++ before) behind)
    (hrender : ∀ site, piece.render site = (lexeme.text, site))
    (hnone : ∀ site, piece.rewritings site = [])
    (hbehind : WordsKept line' (lexeme.text.reverse ++ before) behind) :
    WordsKept line before (b :: rest) := by
  have hwhole := append_of_nextLexeme hnext
  constructor
  · intro site front _ word hreserved hmem
    simp only [houtline, renderPieces, hrender, ← List.append_assoc] at hmem ⊢
    rw [← hwhole, ← List.append_assoc]
    exact hbehind.rendered site _ (wordsEnd_behind hnext front) word hreserved hmem
  · intro site call hcall operand hoperand word hreserved hmem
    rw [houtline, rewritings, hnone, List.nil_append, hrender] at hcall
    have hin := hbehind.operands site call hcall operand hoperand word hreserved hmem
    have hends := wordsEnd_behind hnext []
    rw [List.nil_append] at hends
    rw [← hwhole, mem_wordsOf_append hends hreserved.ne_nil]
    exact hin.imp_left .inr

/-- The words of a source at a call stand in front of its parenthesis, inside or behind. -/
theorem mem_wordsOf_at_call (hnext : nextLexeme before b rest = (lexeme, behind))
    (hopening : opening? lexeme behind = some (builtin, gap, inner))
    (hjudge : judge builtin line
      (Byte.openParen :: gap.reverse ++ lexeme.text.reverse ++ before) inner = .ok list)
    {front word : Bytes} :
    word ∈ wordsOf (front ++ b :: rest) ↔
      word ∈ wordsOf (front ++ builtin.spelling ++ gap) ∨ word ∈ wordsOf list.inside ∨
        word ∈ wordsOf list.behind := by
  have hcall : front ++ b :: rest =
      (front ++ builtin.spelling ++ gap) ++
        Byte.openParen :: (list.inside ++ Byte.closeParen :: list.behind) := by
    rw [← append_callTail hnext hopening hjudge]
    simp [callTail]
  rw [hcall, mem_wordsOf_append_cons (by decide), mem_wordsOf_append_cons (by decide)]

end Outline

/-- A replacement begins and ends with bytes of no identifier. -/
theorem Rewriting.text_ends (call : Rewriting) :
    call.text.head? = some Byte.openParen ∧ ∀ text, WordsEnd call.text.reverse text := by
  obtain ⟨hhead, hlast⟩ := program_parenthesized call.builtin (callOperands call.texts)
    (.numbered call.number)
  rw [call.text_eq_numbered, padLines]
  refine ⟨by simp [hhead], fun text b hb c _ hcontinues => ?_⟩
  rw [List.head?_reverse, List.getLast?_append, hlast, List.getLast?_replicate] at hb
  split at hb <;> cases hb <;> cases hcontinues

section Outline

variable {line : Nat} {before rest behind gap inner : Bytes} {b : UInt8} {lexeme : Lexeme}
  {builtin : Builtin} {list : ArgumentList}

/-- The operands of a call are made of its arguments and of the calls among these. -/
theorem mem_wordsOf_inside_of_operandTexts
    (harguments : ∀ argument ∈ list.arguments.take builtin.operandCount, ∀ line,
      WordsKept line [] argument) {site : Nat} {text word : Bytes}
    (htext : text ∈ Rewriting.operandTexts ⟨site, builtin, gap, list,
      outlineOperands line (list.arguments.take builtin.operandCount)⟩)
    (hreserved : Reserved word) (hmem : word ∈ wordsOf text) :
    word ∈ wordsOf list.inside ∨ Generated (Rewriting.number ⟨site, builtin, gap, list,
      outlineOperands line (list.arguments.take builtin.operandCount)⟩) word := by
  obtain ⟨operand, hoperand, hin⟩ := exists_mem_texts htext hmem hreserved.ne_nil
  refine (mem_wordsOf_of_renderOperands harguments _ _ hoperand hreserved hin).imp_left ?_
  rintro ⟨argument, hargument, hin⟩
  exact mem_wordsOf_of_argument (List.mem_of_mem_take hargument) hin hreserved.ne_nil

/-- The words of a replacement are those of its operands and the names that its site declares. -/
theorem WordsKept.expanded (hnext : nextLexeme before b rest = (lexeme, behind))
    (hopening : opening? lexeme behind = some (builtin, gap, inner))
    (hjudge : judge builtin (line + newlines gap)
      (Byte.openParen :: gap.reverse ++ lexeme.text.reverse ++ before) inner = .ok list)
    (harguments : ∀ argument ∈ list.arguments.take builtin.operandCount, ∀ line,
      WordsKept line [] argument)
    (hbehind : WordsKept (line + newlines (callTail gap list))
      ((callTail gap list).reverse ++ lexeme.text.reverse ++ before) list.behind) :
    WordsKept line before (b :: rest) := by
  have hsource (front word : Bytes) :=
    @mem_wordsOf_at_call _ _ _ _ _ _ _ _ _ _ hnext hopening hjudge front word
  have houtline := outline_expanded hnext hopening hjudge
  have hself (site : Nat) (text : Bytes) (htext : text ∈ Rewriting.operandTexts _) (word : Bytes) :=
    @mem_wordsOf_inside_of_operandTexts (line + newlines gap) gap builtin list harguments site
      text word htext
  constructor
  case rendered =>
    intro site front hends word hreserved hmem
    let call : Rewriting := ⟨site, builtin, gap, list,
      outlineOperands (line + newlines gap) (list.arguments.take builtin.operandCount)⟩
    obtain ⟨hhead, hlast⟩ := call.text_ends
    rw [houtline] at hmem ⊢
    change word ∈ wordsOf (front ++ (call.text ++ (renderPieces (call.number + 1) _).1)) at hmem
    change _ ∨ Generated (renderPieces (call.number + 1) _).2 word
    have hrest := hbehind.rendered (call.number + 1) [] (wordsEnd_nil _) word hreserved
    generalize outline _ _ list.behind = more at hmem hrest ⊢
    -- A replacement begins with a parenthesis and ends in one or in a line end, so that no word
    -- reaches into it or out of it.
    have hopens : WordsEnd front.reverse
        (call.text ++ (renderPieces (call.number + 1) more).1) := by
      intro c _ d hd _
      rw [List.head?_append, hhead] at hd
      cases hd
      decide
    have hlater : call.number + 1 ≤ (renderPieces (call.number + 1) more).2 := by
      rw [snd_renderPieces]
      exact Nat.le_add_right _ _
    rw [mem_wordsOf_append hopens hreserved.ne_nil, mem_wordsOf_append (hlast _) hreserved.ne_nil]
      at hmem
    rcases hmem with hfront | hhere | hmore
    · rw [mem_wordsOf_append hends hreserved.ne_nil]
      exact .inl (.inl hfront)
    · rw [hsource]
      rcases mem_wordsOf_of_text hreserved hhere with ⟨text, htext, hin⟩ | hname
      · rcases hself site text htext word hreserved hin with hinside | hname
        · exact .inl (.inr (.inl hinside))
        · exact .inr (hname.mono (Nat.le_trans (Nat.le_succ _) hlater))
      · exact .inr (hname.mono hlater)
    · rw [hsource]
      exact (hrest hmore).imp_left fun hin => .inr (.inr hin)
  case operands =>
    intro site call hcall operand hoperand word hreserved hmem
    have hwhole := hsource [] word
    rw [List.nil_append] at hwhole
    rw [houtline, rewritings, Piece.rewritings] at hcall
    rw [hwhole]
    rcases List.mem_append.mp hcall with hhere | hmore
    · rcases List.mem_append.mp hhere with hamong | hsame
      · have hinner := forall_operandRewritings
          (p := fun call => ∀ operand ∈ call.operandTexts, ∀ word, Reserved word →
            word ∈ wordsOf operand → word ∈ wordsOf list.inside ∨ Generated call.number word)
          (fun argument hmem line site call hcall operand hoperand word hreserved hin =>
            ((harguments argument hmem line).operands site call hcall operand hoperand word
              hreserved hin).imp_left fun hword => mem_wordsOf_of_argument
                (List.mem_of_mem_take hmem) hword hreserved.ne_nil)
          _ _ call hamong operand hoperand word hreserved hmem
        exact hinner.imp_left fun hin => .inr (.inl hin)
      · rw [List.mem_singleton] at hsame
        subst hsame
        exact (hself site operand hoperand word hreserved hmem).imp_left fun hin => .inr (.inl hin)
    · exact (hbehind.operands _ call hmore operand hoperand word hreserved hmem).imp_left
        fun hin => .inr (.inr hin)

end Outline

/-- Every outline adds no reserved words but the names of its sites. -/
theorem wordsKept_outline (line : Nat) (before text : Bytes) : WordsKept line before text := by
  induction line, before, text using outline_induction with
  | nil line before =>
    constructor
    · intro site front _ word _ hmem
      rw [outline] at hmem
      exact .inl hmem
    · intro site call hcall
      rw [outline] at hcall
      cases hcall
  | copied hnext hopening ih =>
    exact .copied hnext (outline_copied hnext hopening) (fun _ => rfl) (fun _ => rfl) ih
  | kept hnext hopening hjudge ih =>
    obtain ⟨rfl, -, -⟩ := opening?_eq_some.mp hopening
    exact .copied hnext (outline_kept hnext hopening hjudge) (fun _ => rfl) (fun _ => rfl) ih
  | expanded hnext hopening hjudge harguments ih =>
    exact .expanded hnext hopening hjudge harguments ih

/-! ## Sessions -/

/-- The calls that a session rewrites in sources, in the order of their sites. -/
def sessionRewritings (session : Session) : List Bytes → List Rewriting
  | [] => []
  | source :: more =>
    rewritings session.site (outline 1 [] source) ++
      sessionRewritings (session.normalize source).2 more

section Session

variable {config : Config} (henabled : config.normalizeAtomics = true) (site : Nat)

include henabled

/-- A source takes a number for each call that is replaced. -/
theorem normalize_of_enabled (source : Bytes) :
    (Session.normalize ⟨config, site⟩ source).1.report.expanded =
        expandedPieces (outline 1 [] source) ∧
      (Session.normalize ⟨config, site⟩ source).2 =
        ⟨config, site + (expandedPieces (outline 1 [] source)).length⟩ := by
  simp only [Session.normalize, henabled, if_true, snd_renderPieces, and_self]

/-- The counter goes on by the calls that are rewritten. -/
theorem snd_normalizeAll (sources : List Bytes) :
    (Session.normalizeAll ⟨config, site⟩ sources).2.site =
      site + ((Session.normalizeAll ⟨config, site⟩ sources).1.map (·.report.total)).sum := by
  induction sources generalizing site with
  | nil => rfl
  | cons source more ih =>
    obtain ⟨hreport, hnext⟩ := normalize_of_enabled henabled site source
    simp only [Session.normalizeAll, hnext, ih, List.map_cons, List.sum_cons, Report.total,
      hreport, Nat.add_assoc]

/-- The calls of a session are those that its reports count. -/
theorem map_builtin_sessionRewritings (sources : List Bytes) :
    (sessionRewritings ⟨config, site⟩ sources).map Rewriting.builtin =
      (Session.normalizeAll ⟨config, site⟩ sources).1.flatMap (·.report.expanded) := by
  induction sources generalizing site with
  | nil => rfl
  | cons source more ih =>
    obtain ⟨hreport, hnext⟩ := normalize_of_enabled henabled site source
    simp only [sessionRewritings, Session.normalizeAll, hnext, List.map_append, ih,
      map_rewritings, List.flatMap_cons, hreport]

/-- The calls of a session have numbers one after the other. -/
theorem map_number_sessionRewritings (sources : List Bytes) :
    (sessionRewritings ⟨config, site⟩ sources).map Rewriting.number =
      List.range' site
        ((Session.normalizeAll ⟨config, site⟩ sources).1.map (·.report.total)).sum := by
  induction sources generalizing site with
  | nil => rfl
  | cons source more ih =>
    obtain ⟨hreport, hnext⟩ := normalize_of_enabled henabled site source
    simp only [sessionRewritings, Session.normalizeAll, hnext, List.map_append, ih,
      map_number_rewritings, List.map_cons, List.sum_cons, Report.total, hreport,
      List.range'_append_1]

/-- The calls among the operands of a call are calls of the session. -/
theorem mem_sessionRewritings_of_operands {sources : List Bytes} {call inner : Rewriting}
    (hcall : call ∈ sessionRewritings ⟨config, site⟩ sources)
    (hinner : inner ∈ operandRewritings call.site call.operands) :
    inner ∈ sessionRewritings ⟨config, site⟩ sources := by
  induction sources generalizing site with
  | nil => cases hcall
  | cons source more ih =>
    rw [sessionRewritings, (normalize_of_enabled henabled site source).2] at hcall ⊢
    rcases List.mem_append.mp hcall with hhere | hmore
    · exact List.mem_append_left _ (mem_rewritings_of_operands hhere hinner)
    · exact List.mem_append_right _ (ih _ hmore)

/-- The calls of a session are exchanged in its sources. -/
theorem rewritesEach_sessionRewritings (sources : List Bytes) :
    RewritesEach (sessionRewritings ⟨config, site⟩ sources) sources
      ((Session.normalizeAll ⟨config, site⟩ sources).1.map (·.text)) := by
  induction sources generalizing site with
  | nil => exact .nil
  | cons source more ih =>
    have hfirst := rewrites_renderPieces site (outline 1 [] source)
    rw [source_outline] at hfirst
    have hnext := (normalize_of_enabled henabled site source).2
    have htext : (Session.normalize ⟨config, site⟩ source).1.text =
        (renderPieces site (outline 1 [] source)).1 := by
      simp only [Session.normalize, henabled, if_true]
    rw [sessionRewritings, Session.normalizeAll, List.map_cons, htext, hnext]
    exact .cons hfirst (ih _)

/-- The operands of every call of a session are its arguments with calls exchanged. -/
theorem rewritesOperands_of_mem_sessionRewritings {sources : List Bytes} {call : Rewriting}
    (hcall : call ∈ sessionRewritings ⟨config, site⟩ sources) : call.RewritesOperands := by
  induction sources generalizing site with
  | nil => cases hcall
  | cons source more ih =>
    rw [sessionRewritings, (normalize_of_enabled henabled site source).2] at hcall
    rcases List.mem_append.mp hcall with hhere | hmore
    · exact rewritesOperands_of_mem_rewritings 1 [] source site call hhere
    · exact ih _ hmore

/-- A reserved word of an operand stands in a source or is the name of an earlier site. -/
theorem mem_wordsOf_of_operandTexts {sources : List Bytes} {call : Rewriting}
    (hcall : call ∈ sessionRewritings ⟨config, site⟩ sources) {operand word : Bytes}
    (hoperand : operand ∈ call.operandTexts) (hreserved : Reserved word)
    (hmem : word ∈ wordsOf operand) :
    (∃ source ∈ sources, word ∈ wordsOf source) ∨ Generated call.number word := by
  induction sources generalizing site with
  | nil => cases hcall
  | cons source more ih =>
    rw [sessionRewritings, (normalize_of_enabled henabled site source).2] at hcall
    rcases List.mem_append.mp hcall with hhere | hmore
    · have hkept := wordsKept_outline 1 [] source
      refine (hkept.operands site call hhere operand hoperand word hreserved hmem).imp_left ?_
      exact fun hin => ⟨source, List.mem_cons_self, hin⟩
    · refine (ih _ hmore).imp_left ?_
      rintro ⟨other, hother, hin⟩
      exact ⟨other, List.mem_cons_of_mem _ hother, hin⟩

end Session

/-- The sites of a session have numbers and names of their own. -/
structure SitesApart (config : Config) (sources : List Bytes) : Prop where
  /-- The calls below are those that are exchanged for their replacements in the sources. -/
  exchanged : RewritesEach (sessionRewritings ⟨config, 0⟩ sources) sources
    ((Session.normalizeAll ⟨config, 0⟩ sources).1.map (·.text))
  /-- Those among the operands of a call are exchanged in its arguments. -/
  operands : ∀ call ∈ sessionRewritings ⟨config, 0⟩ sources, call.RewritesOperands
  /-- The calls are the ones that the reports count. -/
  reported : (sessionRewritings ⟨config, 0⟩ sources).map Rewriting.builtin =
    (Session.normalizeAll ⟨config, 0⟩ sources).1.flatMap (·.report.expanded)
  /-- Each is replaced by an expansion that declares the temporaries of its number. -/
  replaced : ∀ call ∈ sessionRewritings ⟨config, 0⟩ sources,
    call.text = padLines call.written ((Expansion.program call.builtin).text
      (callOperands call.texts) (.numbered call.number))
  /-- They have the numbers from zero on, each once. -/
  numbers : (sessionRewritings ⟨config, 0⟩ sources).map Rewriting.number =
    List.range ((Session.normalizeAll ⟨config, 0⟩ sources).1.map (·.report.total)).sum
  /-- After every source the counter is the number of calls rewritten so far. -/
  counter : ∀ count, (Session.normalizeAll ⟨config, 0⟩ (sources.take count)).2.site =
    ((Session.normalizeAll ⟨config, 0⟩ (sources.take count)).1.map (·.report.total)).sum
  /-- The calls among the operands of a call have smaller numbers. -/
  inner : ∀ call ∈ sessionRewritings ⟨config, 0⟩ sources,
    ∀ inner ∈ operandRewritings call.site call.operands,
      inner ∈ sessionRewritings ⟨config, 0⟩ sources ∧ inner.number < call.number
  /-- No operand has a name that the expansion around it declares. -/
  uncaptured : (∀ source ∈ sources, ∀ word ∈ wordsOf source, ¬ Reserved word) →
    ∀ call ∈ sessionRewritings ⟨config, 0⟩ sources, ∀ operand ∈ call.operandTexts,
      (Temporaries.numbered call.number).pointer ∉ wordsOf operand ∧
        (Temporaries.numbered call.number).saved ∉ wordsOf operand

/-- Whatever sources a session normalizes, its sites have numbers and names of their own. -/
theorem sitesApart (config : Config) (henabled : config.normalizeAtomics = true)
    (sources : List Bytes) : SitesApart config sources where
  exchanged := rewritesEach_sessionRewritings henabled 0 sources
  operands _ hcall := rewritesOperands_of_mem_sessionRewritings henabled 0 hcall
  reported := map_builtin_sessionRewritings henabled 0 sources
  replaced call _ := call.text_eq_numbered
  numbers := by rw [map_number_sessionRewritings henabled 0 sources, List.range_eq_range']
  counter count := by rw [snd_normalizeAll henabled 0, Nat.zero_add]
  inner call hcall inner hinner :=
    ⟨mem_sessionRewritings_of_operands henabled 0 hcall hinner, number_lt_of_mem_operands hinner⟩
  uncaptured := by
    intro hsources call hcall operand hoperand
    have hname (name : Temporary) : temporaryName call.number name ∉ wordsOf operand := by
      intro hmem
      have hreserved := reserved_temporaryName call.number name
      rcases mem_wordsOf_of_operandTexts henabled 0 hcall hoperand hreserved hmem with
        ⟨source, hsource, hin⟩ | ⟨earlier, hless, name', hsame⟩
      · exact hsources source hsource _ hin hreserved
      · exact absurd (site_eq_of_temporaryName_eq hsame) (Nat.ne_of_gt hless)
    exact ⟨hname .pointer, hname .saved⟩

/-- Two sources, the first with a call in an operand of another. -/
def nestedThenPlain : List Bytes :=
  [ofString "__sync_fetch_and_add(f(__sync_fetch_and_sub(&a, 1)), b);",
    ofString "__sync_lock_test_and_set(&c, __centrinel);"]

/-- The sites of two sources that use no reserved word. -/
theorem sitesApart_nestedThenPlain :
    (sessionRewritings ⟨{}, 0⟩ nestedThenPlain).map Rewriting.number = [0, 1, 2] ∧
      SitesApart {} nestedThenPlain ∧
      ∀ call ∈ sessionRewritings ⟨{}, 0⟩ nestedThenPlain, ∀ operand ∈ call.operandTexts,
        (Temporaries.numbered call.number).pointer ∉ wordsOf operand ∧
          (Temporaries.numbered call.number).saved ∉ wordsOf operand := by
  have hsources : ∀ source ∈ nestedThenPlain, ∀ word ∈ wordsOf source, ¬ Reserved word := by
    decide +kernel
  have happart := sitesApart {} rfl nestedThenPlain
  exact ⟨by decide +kernel, happart, happart.uncaptured hsources⟩

end PlainSync.Source
