import PlainSync.Proofs.Header.Definitions
import PlainSync.Proofs.Normalize.Composition

/-!
# Stand-ins and replacements

The header gives a built-in the same expansion as normalization gives a call of it. A use of the
stand-in, with the trimmed arguments for its parameters and the number of the site behind the
names of its temporaries, is the text that the call is replaced by.
-/

namespace PlainSync.Header

open Source Bytes Reading

/-! ## The definition of a stand-in -/

/-- The name at a site of a temporary that has a fixed name in the header. -/
def numberedName? (site : Nat) (name : Bytes) : Option Bytes :=
  if name = Temporaries.fixed.pointer then some (temporaryName site .pointer)
  else if name = Temporaries.fixed.saved then some (temporaryName site .saved)
  else none

/-- A text with the number of a site behind the fixed names of temporaries. -/
def numberTemporaries (site : Nat) (text : Bytes) : Bytes := exchange (numberedName? site) text

/-- The definition with the names that its temporaries have at a site. -/
def Definition.numbered (definition : Definition) (site : Nat) : Definition :=
  { definition with body := numberTemporaries site definition.body }

/-- What the stand-in of a built-in defines. -/
def standInDefinition (builtin : Builtin) : Definition where
  name := builtin.spelling
  parameters :=
    ((if builtin.operandCount = 0 then [] else ["ptr"]) ++ valueParameters builtin).map ofString
  variadic := true
  body := standInBody builtin

/-- The line of a stand-in is read as its definition. -/
theorem ofLine?_standIn (builtin : Builtin) :
    Definition.ofLine? (standIn builtin) = some (standInDefinition builtin) := by
  cases builtin with
  | fetchAndOp update | opAndFetch update => cases update <;> decide +kernel
  | _ => decide +kernel

/-- A stand-in has a parameter for each operand. -/
theorem length_parameters (builtin : Builtin) :
    (standInDefinition builtin).parameters.length = builtin.operandCount := by
  cases builtin <;> rfl

/-- The body of a stand-in is plain text. -/
theorem plain_standInBody (builtin : Builtin) : Plain (standInBody builtin) := by
  cases builtin with
  | fetchAndOp update | opAndFetch update => cases update <;> decide +kernel
  | _ => decide +kernel

/-- The lexemes of a stand-in stay apart when it is filled in. -/
theorem isApart_standInBody (builtin : Builtin) :
    isApart (lexemes [] (standInBody builtin)) := by
  cases builtin with
  | fetchAndOp update | opAndFetch update => cases update <;> decide +kernel
  | _ => decide +kernel

/-- No parameter begins as the names of temporaries do. -/
theorem head?_of_mem_parameters {builtin : Builtin} {name : Bytes}
    (hname : name ∈ (standInDefinition builtin).parameters) :
    name.head? ≠ some Byte.underscore := by
  have hall : ∀ name ∈ (standInDefinition builtin).parameters,
      name.head? ≠ some Byte.underscore := by
    cases builtin with
    | fetchAndOp update | opAndFetch update => cases update <;> decide
    | _ => decide
  exact hall name hname

/-! ## Places -/

/-- The place in an expansion that an identifier of a stand-in marks. -/
def place? (builtin : Builtin) (name : Bytes) : Option Slot :=
  match (standInDefinition builtin).parameters.idxOf? name with
  | some 0 => some .pointer
  | some (index + 1) => some (.value index)
  | none =>
    if name = Temporaries.fixed.pointer then some .pointerName
    else if name = Temporaries.fixed.saved then some .savedName
    else none

/-- The part of a template that a lexeme of a stand-in is. -/
def symbolsOf (builtin : Builtin) : Lexeme → List Symbol
  | .word name => ((place? builtin name).map ([.slot ·])).getD (name.map .byte)
  | lexeme => lexeme.text.map .byte

/-- A symbol with the pointer in the place of the pointer inside `typeof`. -/
def onePointer : Symbol → Symbol
  | .slot .pointerType => .slot .pointer
  | symbol => symbol

/-- The body of a stand-in is the template of its built-in. -/
theorem flatMap_symbolsOf (builtin : Builtin) :
    (lexemes [] (standInBody builtin)).flatMap (symbolsOf builtin) =
      (template builtin).map onePointer := by
  cases builtin with
  | fetchAndOp update | opAndFetch update => cases update <;> decide +kernel
  | _ => decide +kernel

/-- The operands of a call whose pointer stands on one line. -/
def plainOperands (arguments : List Bytes) : Operands :=
  ⟨arguments.head?.getD [], arguments.head?.getD [], arguments.tail⟩

/-- Plain operands have one text for both uses of the pointer. -/
theorem fill_onePointer (arguments : List Bytes) (names : Temporaries) (symbols : List Symbol) :
    fill (plainOperands arguments) names (symbols.map onePointer) =
      fill (plainOperands arguments) names symbols := by
  rw [fill, List.flatMap_map]
  refine congrArg (List.flatMap · symbols) (funext fun symbol => ?_)
  cases symbol with
  | byte b => rfl
  | slot place => cases place <;> rfl

/-- Bytes are filled in as they are. -/
theorem fill_bytes (operands : Operands) (names : Temporaries) (text : Bytes) :
    fill operands names (text.map .byte) = text := by
  rw [fill, List.flatMap_map]
  exact List.flatMap_singleton' text

/-- A parameter has the argument at its place. -/
theorem lookup_zip (names values : List Bytes) (name : Bytes) :
    (names.zip values).lookup name = (names.idxOf? name).bind (values[·]?) := by
  induction names generalizing values with
  | nil => rfl
  | cons first names ih =>
    cases values with
    | nil => simp
    | cons value values =>
      by_cases hname : first = name
      · simp [List.idxOf?_cons, hname]
      · have hname' : (name == first) = false := by simpa using fun hsame => hname hsame.symm
        have hindex : (first == name) = false := beq_eq_false_iff_ne.mpr hname
        rw [List.zip_cons_cons, List.lookup_cons, hname', List.idxOf?_cons, hindex]
        simp only [Bool.false_eq_true, if_false, ih]
        cases names.idxOf? name <;> rfl

/-- The value of an identifier of a stand-in at a site: an argument or the name of a temporary. -/
def siteValue? (builtin : Builtin) (site : Nat) (arguments : List Bytes) (name : Bytes) :
    Option Bytes :=
  ((standInDefinition builtin).argument? arguments name).or (numberedName? site name)

section Site

variable {builtin : Builtin} {arguments : List Bytes}

/-- An identifier that is exchanged marks the place that its value is put in. -/
theorem exchangedText_siteValue? (hcount : builtin.operandCount ≤ arguments.length) (site : Nat)
    (lexeme : Lexeme) :
    exchangedText (siteValue? builtin site arguments) lexeme =
      fill (plainOperands arguments) (.numbered site) (symbolsOf builtin lexeme) := by
  cases lexeme with
  | word name =>
    rw [exchangedText, siteValue?, Definition.argument?, lookup_zip, symbolsOf, place?]
    cases hindex : (standInDefinition builtin).parameters.idxOf? name with
    | none =>
      rw [Option.bind_none, Option.none_or, numberedName?]
      split
      · simp [fill, Symbol.text, Slot.text, temporaryName]
      · split
        · simp [fill, Symbol.text, Slot.text, temporaryName]
        · exact (fill_bytes _ _ name).symm
    | some index =>
      have hfits : index < arguments.length := by
        obtain ⟨hbound, -⟩ := List.findIdx?_eq_some_iff_getElem.mp hindex
        rw [length_parameters] at hbound
        omega
      have hvalue : arguments[index]? = some arguments[index] := List.getElem?_eq_getElem hfits
      rw [Option.bind_some, hvalue]
      cases index with
      | zero => simp [fill, Symbol.text, Slot.text, plainOperands, List.head?_eq_getElem?, hvalue]
      | succ index => simp [fill, Symbol.text, Slot.text, plainOperands, hvalue]
  | _ => exact (fill_bytes _ _ _).symm

/-- The body of a stand-in with all its identifiers exchanged is the expansion at the site. -/
theorem exchange_siteValue? (hcount : builtin.operandCount ≤ arguments.length) (site : Nat) :
    exchange (siteValue? builtin site arguments) (standInBody builtin) =
      (Expansion.program builtin).text (plainOperands arguments) (.numbered site) := by
  have htext := funext (exchangedText_siteValue? hcount site)
  rw [exchange, htext, ← fill_template, ← fill_onePointer, ← flatMap_symbolsOf, fill,
    List.flatMap_assoc]
  rfl

/-- Parameters do not have the names of temporaries. -/
theorem argument?_eq_none {name : Bytes} (hname : name.head? = some Byte.underscore) :
    (standInDefinition builtin).argument? arguments name = none := by
  have hindex : (standInDefinition builtin).parameters.idxOf? name = none := by
    rw [List.idxOf?_eq_none_iff]
    exact fun hmem => head?_of_mem_parameters hmem hname
  rw [Definition.argument?, lookup_zip, hindex, Option.bind_none]

/-- Only temporaries are renamed, each to one of the site. -/
theorem exists_temporaryName_of_numberedName? {site : Nat} {name value : Bytes}
    (hvalue : numberedName? site name = some value) :
    name.head? = some Byte.underscore ∧ ∃ temporary, value = temporaryName site temporary := by
  rw [numberedName?] at hvalue
  split at hvalue
  · next hname =>
    cases hvalue
    rw [hname]
    exact ⟨by decide, .pointer, rfl⟩
  · split at hvalue
    · next hname =>
      cases hvalue
      rw [hname]
      exact ⟨by decide, .saved, rfl⟩
    · cases hvalue

/-- The name of a temporary is one lexeme. -/
theorem lexemes_temporaryName (site : Nat) (temporary : Temporary) :
    lexemes [] (temporaryName site temporary) = [.word (temporaryName site temporary)] :=
  lexemes_of_firm_word (exists_word_temporaryName site temporary).1 []

/-- The name of a temporary can stand in its place. -/
theorem firm_temporaryName (site : Nat) (temporary : Temporary) :
    Firm (temporaryName site temporary) := by
  refine firm_of_plain ?_
  cases temporary with
  | pointer => exact (plain_numbered site).1
  | saved => exact (plain_numbered site).2

/-- A stand-in whose temporaries are numbered expands to the expansion at the site. -/
theorem expand?_numbered (hcount : builtin.operandCount ≤ arguments.length) (site : Nat) :
    ((standInDefinition builtin).numbered site).expand? arguments =
      some ((Expansion.program builtin).text (plainOperands arguments) (.numbered site)) := by
  have hvalues : ∀ name, Lexeme.word name ∈ lexemes [] (standInBody builtin) →
      ∀ value ∈ numberedName? site name, Firm value := by
    intro name _ value hvalue
    obtain ⟨-, temporary, rfl⟩ := exists_temporaryName_of_numberedName? hvalue
    exact firm_temporaryName site temporary
  -- The second exchange finds nothing in the numbered names.
  have hsame : (fun name => ((numberedName? site name).map
      (exchange ((standInDefinition builtin).argument? arguments))).or
        ((standInDefinition builtin).argument? arguments name)) =
      siteValue? builtin site arguments := by
    funext name
    rw [siteValue?]
    cases hvalue : numberedName? site name with
    | none => simp
    | some value =>
      obtain ⟨hname, temporary, rfl⟩ := exists_temporaryName_of_numberedName? hvalue
      obtain ⟨word, hword⟩ := exists_temporaryName_eq site temporary
      rw [argument?_eq_none hname, Option.map_some, exchange_eq_self]
      · rfl
      · intro other hother
        rw [lexemes_temporaryName, List.mem_singleton, Lexeme.word.injEq] at hother
        exact argument?_eq_none (by rw [hother, hword]; rfl)
  have hcount' : ((standInDefinition builtin).numbered site).parameters.length ≤ arguments.length :=
    (length_parameters builtin).trans_le hcount
  rw [Definition.expand?_of_variadic rfl hcount', ← exchange_siteValue? hcount, ← hsame]
  exact congrArg some (exchange_exchange (isApart_standInBody builtin)
    (allFirm_lexemes_of_plain (plain_standInBody builtin)) hvalues _)

/-- No identifier of a text is the fixed name of a temporary. -/
def NamesNoTemporary (text : Bytes) : Prop :=
  Lexeme.word Temporaries.fixed.pointer ∉ lexemes [] text ∧
    Lexeme.word Temporaries.fixed.saved ∉ lexemes [] text

instance (text : Bytes) : Decidable (NamesNoTemporary text) := instDecidableAnd

/-- The temporaries of a stand-in can be numbered after its use, too, if no argument names one. -/
theorem numberTemporaries_expand? (hcount : builtin.operandCount ≤ arguments.length)
    (hplain : ∀ argument ∈ arguments, Plain argument)
    (hnames : ∀ argument ∈ arguments, NamesNoTemporary argument) (site : Nat) :
    ((standInDefinition builtin).expand? arguments).map (numberTemporaries site) =
      some ((Expansion.program builtin).text (plainOperands arguments) (.numbered site)) := by
  have hargument {name value : Bytes}
      (hvalue : (standInDefinition builtin).argument? arguments name = some value) :
      value ∈ arguments := by
    rw [Definition.argument?, lookup_zip, Option.bind_eq_some_iff] at hvalue
    obtain ⟨index, -, hget⟩ := hvalue
    exact List.mem_of_getElem? hget
  have hsame : (fun name => (((standInDefinition builtin).argument? arguments name).map
      (exchange (numberedName? site))).or (numberedName? site name)) =
      siteValue? builtin site arguments := by
    funext name
    rw [siteValue?]
    cases hvalue : (standInDefinition builtin).argument? arguments name with
    | none => rfl
    | some value =>
      obtain ⟨hpointer, hsaved⟩ := hnames value (hargument hvalue)
      rw [Option.map_some, exchange_eq_self]
      intro other hother
      rw [numberedName?, if_neg, if_neg]
      · exact fun heq => hsaved (heq ▸ hother)
      · exact fun heq => hpointer (heq ▸ hother)
  rw [Definition.expand?_of_variadic rfl ((length_parameters builtin).trans_le hcount),
    ← exchange_siteValue? hcount, ← hsame]
  exact congrArg some (exchange_exchange (isApart_standInBody builtin)
    (allFirm_lexemes_of_plain (plain_standInBody builtin))
    (fun name _ value hvalue => firm_of_plain (hplain value (hargument hvalue))) _)

end Site

/-! ## Calls -/

/-- Texts are printed as they are. -/
theorem printArguments_text (arguments : List Bytes) :
    printArguments (arguments.map .text) = arguments := by
  induction arguments with
  | nil => rfl
  | cons argument more ih => rw [List.map_cons, printArguments, ih, ArgumentTree.print]

/-- Texts that open no call and close their brackets are well-formed arguments. -/
theorem argumentsWellFormed_text {arguments : List Bytes}
    (hinert : ∀ argument ∈ arguments, Inert argument)
    (hbrackets : ∀ argument ∈ arguments, bracketDepth? 0 argument = some 0) :
    ArgumentsWellFormed (arguments.map .text) := by
  induction arguments with
  | nil => trivial
  | cons argument more ih =>
    obtain ⟨hfirst, hmore⟩ := List.forall_mem_cons.mp hinert
    obtain ⟨hdepth, hmoreDepth⟩ := List.forall_mem_cons.mp hbrackets
    exact ⟨hfirst, hdepth, ih hmore hmoreDepth⟩

/-- Texts are trimmed for their operands. -/
theorem translateOperands?_text (site count : Nat) (arguments : List Bytes) :
    translateOperands? site count (arguments.map .text) =
      some ((arguments.take count).map trim, site) := by
  induction arguments generalizing count with
  | nil => simp [translateOperands?]
  | cons argument more ih =>
    cases count with
    | zero => rfl
    | succ count =>
      simp only [List.map_cons, translateOperands?, ArgumentTree.translate?, ih,
        Option.bind_eq_bind, Option.bind_some, List.take_succ_cons]
      rfl

/-- Texts have no calls to translate. -/
theorem translatedOperands_text (count : Nat) (arguments : List Bytes) :
    translatedOperands count (arguments.map .text) = [] := by
  induction arguments generalizing count with
  | nil => rfl
  | cons argument more ih =>
    cases count with
    | zero => rfl
    | succ count => simp [translatedOperands, ArgumentTree.translated, ih]

/-- The text of a call. -/
def callSource (builtin : Builtin) (arguments : List Bytes) : Bytes :=
  builtin.spelling ++ Byte.openParen :: ([Byte.comma].intercalate arguments ++ [Byte.closeParen])

/-- A call needs only the arguments that its stand-in has parameters for. -/
theorem argument?_take (builtin : Builtin) (arguments : List Bytes) :
    (standInDefinition builtin).argument? (arguments.take builtin.operandCount) =
      (standInDefinition builtin).argument? arguments := by
  funext name
  rw [Definition.argument?, Definition.argument?, lookup_zip, lookup_zip]
  cases hindex : (standInDefinition builtin).parameters.idxOf? name with
  | none => rfl
  | some index =>
    obtain ⟨hbound, -⟩ := List.findIdx?_eq_some_iff_getElem.mp hindex
    rw [length_parameters] at hbound
    rw [Option.bind_some, Option.bind_some, List.getElem?_take_of_lt hbound]

/-- A call of texts is translated to the expansion of the trimmed texts. -/
theorem translate?_texts {builtin : Builtin} {arguments : List Bytes}
    (hcount : builtin.operandCount ≤ arguments.length) (site : Nat) :
    (CallTree.call builtin (arguments.map .text)).translate? site =
      some ((Expansion.program builtin).text (plainOperands (arguments.map trim))
        (.numbered site), site + 1) := by
  have htrimmed : builtin.operandCount ≤ (arguments.map trim).length := by rwa [List.length_map]
  have hneeded :
      builtin.operandCount ≤ ((arguments.take builtin.operandCount).map trim).length := by
    rw [List.length_map, List.length_take]
    omega
  have hvalues : ¬ ((arguments.take builtin.operandCount).map trim).tail.length <
      builtin.valueCount := by
    rw [List.length_tail, Builtin.valueCount]
    omega
  have hargument := argument?_take builtin (arguments.map trim)
  rw [← List.map_take] at hargument
  have htext : exchange (siteValue? builtin site (arguments.map trim)) (standInBody builtin) =
      exchange (siteValue? builtin site ((arguments.take builtin.operandCount).map trim))
        (standInBody builtin) := by
    refine congrArg (exchange · (standInBody builtin)) (funext fun name => ?_)
    rw [siteValue?, siteValue?, hargument]
  rw [← exchange_siteValue? htrimmed, htext, exchange_siteValue? hneeded]
  simp only [CallTree.translate?, translateOperands?_text, Option.bind_eq_bind, Option.bind_some,
    expand?, if_neg hvalues]
  rfl

/-- A call of plain arguments is replaced by the expansion of the trimmed ones. -/
theorem normalize_callSource {session : Session} (henabled : session.config.normalizeAtomics = true)
    {builtin : Builtin} {arguments : List Bytes}
    (hcount : builtin.operandCount ≤ arguments.length)
    (hblank : ∀ argument ∈ arguments.take builtin.operandCount, ¬ argument.all Byte.isWhiteSpace)
    (hinert : ∀ argument ∈ arguments, Inert argument)
    (hbrackets : ∀ argument ∈ arguments, bracketDepth? 0 argument = some 0) :
    session.normalize (callSource builtin arguments) =
      (⟨(Expansion.program builtin).text (plainOperands (arguments.map trim))
          (.numbered session.site), { expanded := [builtin] }⟩,
        { session with site := session.site + 1 }) := by
  let call : CallTree := .call builtin (arguments.map .text)
  have hprint : call.print = callSource builtin arguments := by
    rw [CallTree.print, printArguments_text, callSource]
  have hcall : call.WellFormed := by
    refine ⟨by rwa [List.length_map], ?_, argumentsWellFormed_text hinert hbrackets⟩
    rwa [printArguments_text]
  obtain ⟨piece, houtline, hpiece⟩ := call.renders hcall 1 [] []
  rw [List.append_nil, outline, hprint] at houtline
  have hrender := (hpiece.translate session.site).symm.trans (translate?_texts hcount session.site)
  have hexpanded : piece.expanded = [builtin] := by
    rw [hpiece.expanded, CallTree.translated, translatedOperands_text, List.nil_append]
  simp only [Session.normalize, henabled, if_true, houtline, renderPieces, expandedPieces,
    keptInPieces, hexpanded, hpiece.kept, Option.some.inj hrender, List.append_nil]

/-- A call of a built-in is replaced by what a use of the stand-in with the trimmed arguments
stands for, once the temporaries of the stand-in have the names of the site. It makes no
difference whether they are named before or after the use where no argument names them. -/
theorem normalize_eq_use_of_standIn (session : Session)
    (henabled : session.config.normalizeAtomics = true) (builtin : Builtin) (arguments : List Bytes)
    (hcount : builtin.operandCount ≤ arguments.length)
    (hblank : ∀ argument ∈ arguments.take builtin.operandCount, ¬ argument.all Byte.isWhiteSpace)
    (hinert : ∀ argument ∈ arguments, Inert argument)
    (hbrackets : ∀ argument ∈ arguments, bracketDepth? 0 argument = some 0) :
    ∃ definition text,
      (∀ options, standIn builtin ∈ lines options) ∧
      Definition.ofLine? (standIn builtin) = some definition ∧
      definition.name = builtin.spelling ∧
      session.normalize (callSource builtin arguments) =
        (⟨text, { expanded := [builtin] }⟩, { session with site := session.site + 1 }) ∧
      (definition.numbered session.site).expand? (arguments.map trim) = some text ∧
      ((∀ argument ∈ arguments.map trim, NamesNoTemporary argument) →
        (definition.expand? (arguments.map trim)).map (numberTemporaries session.site) =
          some text) := by
  have htrimmed : builtin.operandCount ≤ (arguments.map trim).length := by rwa [List.length_map]
  have hplain : ∀ argument ∈ arguments.map trim, Plain argument := by
    intro argument hargument
    obtain ⟨written, hwritten, rfl⟩ := List.mem_map.mp hargument
    exact (hinert written hwritten).plain.mono (infix_trim written)
  have hline (options : Options) : standIn builtin ∈ lines options := by
    simp [lines, List.mem_map_of_mem (mem_all builtin)]
  exact ⟨standInDefinition builtin, _, hline, ofLine?_standIn builtin, rfl,
    normalize_callSource henabled hcount hblank hinert hbrackets,
    expand?_numbered htrimmed session.site,
    fun hnames => numberTemporaries_expand? htrimmed hplain hnames session.site⟩

/-- Arguments that have the names of parameters in them. -/
theorem normalize_eq_use_of_standIn_names :
    ∃ definition text,
      (∀ options, standIn .boolCompareAndSwap ∈ lines options) ∧
      Definition.ofLine? (standIn .boolCompareAndSwap) = some definition ∧
      definition.name = Builtin.boolCompareAndSwap.spelling ∧
      Session.normalize { config := {}, site := 7 } (callSource .boolCompareAndSwap
          [ofString " &ptr->newval", ofString "oldval ", ofString "f(ptr, 1)"]) =
        (⟨text, { expanded := [.boolCompareAndSwap] }⟩, { config := {}, site := 8 }) ∧
      (definition.numbered 7).expand?
          ([ofString " &ptr->newval", ofString "oldval ", ofString "f(ptr, 1)"].map trim) =
        some text ∧
      ((∀ argument ∈ [ofString " &ptr->newval", ofString "oldval ", ofString "f(ptr, 1)"].map trim,
          NamesNoTemporary argument) →
        (definition.expand?
          ([ofString " &ptr->newval", ofString "oldval ", ofString "f(ptr, 1)"].map trim)).map
            (numberTemporaries 7) = some text) :=
  normalize_eq_use_of_standIn { config := {}, site := 7 } rfl .boolCompareAndSwap
    [ofString " &ptr->newval", ofString "oldval ", ofString "f(ptr, 1)"]
    (by decide) (by decide +kernel) (by decide +kernel) (by decide +kernel)

end PlainSync.Header
