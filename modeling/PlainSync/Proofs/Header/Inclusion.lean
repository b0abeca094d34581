import PlainSync.Proofs.Header.DirectiveLines
import PlainSync.Proofs.Header.StandIns

/-!
# Inclusion of the header

The header establishes its facts wherever it is included. The facts stand in front of the group
that they decide on, and the guard stands around everything, so the names that are defined
afterwards depend only on the options of the header and on the names that were defined before, and
a second inclusion finds nothing to do.
-/

namespace PlainSync.Header

open Source Bytes

/-! ## What the header sets -/

/-- What a built-in is defined as. -/
def standInReplacement (builtin : Builtin) : Replacement :=
  ⟨some ((parameters builtin).map ofString), standInBody builtin⟩

/-- The tag of the managed region as it is written. -/
def attributeBody : Bytes := ofString s!"__attribute__(({regionName}))"

/-- What the feature sentinels set. -/
def factSettings (facts : Sentinels) : List Setting :=
  [(ofString Sentinels.blocksName, if facts.blocksAvailable then none else some none),
    (ofString Sentinels.presentName,
      if facts.present then some (some ⟨none, ofString "1"⟩) else none),
    (ofString Sentinels.syncAtomicsName,
      if facts.syncAtomics then some (some ⟨none, ofString "1"⟩) else none)]

/-- What the header sets in front of the stand-ins. -/
def openSettings (options : Options) : List Setting :=
  (ofString guardName, some (some ⟨none, []⟩)) :: factSettings options.sentinels ++
    [(ofString regionName, some (some ⟨none, ofString options.managedRegion.attributeText⟩)),
      (ofString attributeName, some (some ⟨none, attributeBody⟩))]

/-- What the stand-ins set, if they are asked for. -/
def standInSettings (asked : Bool) : List Setting :=
  Builtin.all.map fun builtin =>
    (builtin.spelling, if asked then some (some (standInReplacement builtin)) else none)

/-! ## What the lines of the header ask for -/

/-- An expansion ends with a parenthesis. -/
theorem getLast?_text (program : Expansion.Program) (operands : Operands) (names : Temporaries) :
    (program.text operands names).getLast? = some Byte.closeParen := by
  cases program with
  | block body result =>
    rw [Expansion.Program.text, List.getLast?_append]
    rfl
  | yielded assignment =>
    rw [Expansion.Program.text, Expansion.parenthesized, List.getLast?_append]
    rfl
  | discarded assignment? =>
    cases assignment? with
    | none => rfl
    | some assignment =>
      rw [Expansion.Program.text, List.getLast?_append]
      rfl

/-- An expansion begins with a parenthesis. -/
theorem head?_text (program : Expansion.Program) (operands : Operands) (names : Temporaries) :
    (program.text operands names).head? = some Byte.openParen := by
  cases program with
  | discarded assignment? => cases assignment? <;> rfl
  | _ => rfl

/-- The parameters of a stand-in as they are written. -/
theorem parameters_written (builtin : Builtin) :
    Byte.closeParen ∉ ofString (String.intercalate "," (parameters builtin)) ∧
      Plain (ofString (String.intercalate "," (parameters builtin))) ∧
      (((ofString (String.intercalate "," (parameters builtin))).splitOnP
        (· = Byte.comma)).map strip).filter (· ≠ []) = (parameters builtin).map ofString := by
  cases builtin with
  | fetchAndOp update | opAndFetch update => cases update <;> decide +kernel
  | _ => decide +kernel

/-- The line of a stand-in asks for the macro of its built-in. -/
theorem asks_standIn (builtin : Builtin) :
    Asks [standIn builtin] [some (.sets builtin.spelling (some (standInReplacement builtin)))] := by
  obtain ⟨hwritten, hplain, hparameters⟩ := parameters_written builtin
  have hlast : (standInBody builtin).getLast? = some Byte.closeParen := getLast?_text _ _ _
  have hhead : (standInBody builtin).head? = some Byte.openParen := head?_text _ _ _
  have hname : builtin.spelling ≠ [] ∧ WordBytes builtin.spelling := by
    obtain ⟨b, rest, hspelling, hstarts, hrest⟩ := spelling_shape builtin
    rw [hspelling]
    exact ⟨List.cons_ne_nil b rest,
      List.forall_mem_cons.mpr ⟨continuesIdentifier_of_startsIdentifier hstarts, hrest⟩⟩
  have hline : standIn builtin = ofString "#define " ++ (builtin.spelling ++ Byte.openParen ::
      (ofString (String.intercalate "," (parameters builtin)) ++
        Byte.closeParen :: Byte.space :: standInBody builtin)) := by
    simp only [standIn, ofString_append, List.append_assoc]
    rfl
  have hbehind : Replacement.ofText (Byte.openParen ::
      (ofString (String.intercalate "," (parameters builtin)) ++
        Byte.closeParen :: Byte.space :: standInBody builtin)) = standInReplacement builtin := by
    rw [ofText_openParen hwritten (strip_of_ends hhead hlast (by decide)), hparameters]
    rfl
  rw [hline, ← hbehind]
  refine asks_define hname ?_ (by rintro b ⟨⟩; decide) ?_
  · rw [plain_cons, plain_append, plain_cons, plain_cons]
    exact ⟨by decide, hplain, by decide, by decide, plain_standInBody builtin⟩
  · have hends : (builtin.spelling ++ Byte.openParen ::
        (ofString (String.intercalate "," (parameters builtin)) ++
          Byte.closeParen :: Byte.space :: standInBody builtin)).getLast? =
        some Byte.closeParen := by
      simp only [List.getLast?_append, List.getLast?_cons, hlast, Option.some_or, Option.getD_some]
    rw [hends]
    rintro b ⟨⟩
    decide

/-- The lines of the sentinels ask for their macros. -/
theorem asks_facts (facts : Sentinels) :
    Asks (facts.directives.map ofString) (instructionsFor (made (factSettings facts))) := by
  have hblocks : Asks [ofString s!"#undef {Sentinels.blocksName}"]
      [some (.sets (ofString Sentinels.blocksName) none)] :=
    asks_plain (by decide +kernel)
  have hpresent : Asks [ofString s!"#define {Sentinels.presentName} 1"]
      [some (.sets (ofString Sentinels.presentName) (some ⟨none, ofString "1"⟩))] :=
    asks_plain (by decide +kernel)
  have hatomics : Asks [ofString s!"#define {Sentinels.syncAtomicsName} 1"]
      [some (.sets (ofString Sentinels.syncAtomicsName) (some ⟨none, ofString "1"⟩))] :=
    asks_plain (by decide +kernel)
  have hmade : made (factSettings facts) =
      (if facts.blocksAvailable then [] else [(ofString Sentinels.blocksName, none)]) ++
        (if facts.present then [(ofString Sentinels.presentName, some ⟨none, ofString "1"⟩)]
          else []) ++
        (if facts.syncAtomics then
          [(ofString Sentinels.syncAtomicsName, some ⟨none, ofString "1"⟩)] else []) := by
    obtain ⟨present, blocks, atomics⟩ := facts
    cases present <;> cases blocks <;> cases atomics <;> rfl
  rw [Sentinels.directives, hmade, instructionsFor, List.map_append, List.map_append,
    List.map_append, List.map_append]
  refine .append (.append ?_ ?_) ?_
  · split
    · exact asks_nil
    · exact hblocks
  · split
    · exact hpresent
    · exact asks_nil
  · split
    · exact hatomics
    · exact asks_nil

/-- The line of the region asks for its macro. -/
theorem asks_region (region : RegionId) :
    Asks [ofString s!"#define {regionName} {region.attributeText}"]
      [some (.sets (ofString regionName) (some ⟨none, ofString region.attributeText⟩))] := by
  have hattribute : ofString region.attributeText =
      ofString "__region(" ++ (ofString region.digits ++ ofString ")") := by
    simp only [RegionId.attributeText, ofString_append, List.append_assoc]
    rfl
  have hline : ofString s!"#define {regionName} {region.attributeText}" =
      ofString "#define " ++
        (ofString regionName ++ Byte.space :: ofString region.attributeText) := by
    simp only [ofString_append, List.append_assoc]
    rfl
  have hdigits : Plain (ofString region.digits) := fun b hb =>
    isPlain_of_isDigit (isDigit_of_mem_numeral _ b hb)
  have hplain : Plain (ofString region.attributeText) := by
    rw [hattribute, plain_append, plain_append]
    exact ⟨by decide, hdigits, by decide⟩
  have hhead : (ofString region.attributeText).head? = some Byte.underscore := by
    rw [hattribute]
    rfl
  have hlast : (ofString region.attributeText).getLast? = some Byte.closeParen := by
    rw [hattribute, List.getLast?_append, List.getLast?_append]
    rfl
  have hbehind : Replacement.ofText (Byte.space :: ofString region.attributeText) =
      ⟨none, ofString region.attributeText⟩ :=
    ofText_space (strip_of_ends hhead hlast (by decide))
  rw [hline, ← hbehind]
  refine asks_define (by decide) (plain_cons.mpr ⟨by decide, hplain⟩) (by rintro b ⟨⟩; decide) ?_
  rw [List.getLast?_append, List.getLast?_cons, hlast]
  rintro b ⟨⟩
  decide

/-- The line of the attribute asks for its macro. -/
theorem asks_attribute :
    Asks [ofString s!"#define {attributeName} __attribute__(({regionName}))"]
      [some (.sets (ofString attributeName) (some ⟨none, attributeBody⟩))] :=
  asks_plain (by decide +kernel)

/-- What a header asks for. -/
def instructions (options : Options) : List (Option Instruction) :=
  some (.opens false (ofString guardName)) :: (instructionsFor (made (openSettings options)) ++
    some (.opens true (ofString Sentinels.syncAtomicsName)) ::
      (instructionsFor (made (standInSettings true)) ++ [some .closes, some .closes]))

/-- The lines of the stand-ins ask for a macro for each built-in. -/
theorem asks_standIns :
    Asks (Builtin.all.map standIn) (instructionsFor (made (standInSettings true))) := by
  rw [instructionsFor, made, standInSettings, List.filterMap_map, List.map_filterMap]
  induction Builtin.all with
  | nil => exact asks_nil
  | cons builtin more ih => exact .append (asks_standIn builtin) ih

/-- The lines of a header ask for what it is to establish. -/
theorem asks_lines (options : Options) : Asks (lines options) (instructions options) := by
  have htitle : Asks [ofString "/* Centrinel shim: include before any other header. */"] [] :=
    asks_blockComment (ofString " Centrinel shim: include before any other header. ")
      (by decide +kernel)
  have hguarded : Asks [ofString s!"#ifndef {guardName}"]
      [some (.opens false (ofString guardName))] :=
    asks_plain (by decide +kernel)
  have hguard : Asks [ofString s!"#define {guardName}"]
      [some (.sets (ofString guardName) (some ⟨none, []⟩))] :=
    asks_plain (by decide +kernel)
  have htagged :
      Asks [ofString "/* Structs tagged with this attribute may not be accessed raw. */"] [] :=
    asks_blockComment (ofString " Structs tagged with this attribute may not be accessed raw. ")
      (by decide +kernel)
  have hasked : Asks [ofString s!"#ifdef {Sentinels.syncAtomicsName}"]
      [some (.opens true (ofString Sentinels.syncAtomicsName))] :=
    asks_plain (by decide +kernel)
  have hplain : Asks
      [ofString "/* Non-atomic stand-ins for the legacy __sync built-ins. Analysis only. */"] [] :=
    asks_blockComment
      (ofString " Non-atomic stand-ins for the legacy __sync built-ins. Analysis only. ")
      (by decide +kernel)
  have hclosed : Asks [ofString s!"#endif /* {Sentinels.syncAtomicsName} */"] [some .closes] :=
    asks_commented (ofString "endif") (ofString s!" {Sentinels.syncAtomicsName} ")
      (by decide +kernel)
  have hend : Asks [ofString s!"#endif /* {guardName} */"] [some .closes] :=
    asks_commented (ofString "endif") (ofString s!" {guardName} ")
      (by decide +kernel)
  have hblank : Asks [ofString ""] [] := asks_blank
  have hfront := htitle.append (hguarded.append (hguard.append hblank))
  have htags := hblank.append (htagged.append ((asks_region options.managedRegion).append
    (asks_attribute.append (hblank.append (hasked.append hplain)))))
  have hall := (((hfront.append (asks_facts options.sentinels)).append htags).append
    asks_standIns).append (hclosed.append (hblank.append hend))
  have hopen : instructionsFor (made (openSettings options)) =
      some (.sets (ofString guardName) (some ⟨none, []⟩)) ::
        (instructionsFor (made (factSettings options.sentinels)) ++
          [some (.sets (ofString regionName)
              (some ⟨none, ofString options.managedRegion.attributeText⟩)),
            some (.sets (ofString attributeName) (some ⟨none, attributeBody⟩))]) := by
    simp only [openSettings, instructionsFor, made, List.cons_append, List.filterMap_cons,
      List.filterMap_append, List.filterMap_nil, Option.map_some, List.map_cons, List.map_append,
      List.map_nil]
  simpa only [lines, instructions, hopen, List.map_cons, List.map_nil, List.cons_append,
    List.nil_append, List.append_assoc] using hall

/-! ## The names that are defined afterwards -/

/-- The names that a header may set. -/
def names : List Bytes :=
  [guardName, Sentinels.blocksName, Sentinels.presentName, Sentinels.syncAtomicsName, regionName,
    attributeName].map ofString ++ Builtin.all.map Builtin.spelling

/-- No two macros of a header have one name. -/
theorem nodup_names : names.Nodup := by decide +kernel

/-- What a header sets. -/
def settings (options : Options) (standIns : Bool) : List Setting :=
  openSettings options ++ standInSettings standIns

/-- The settings of a header are about its macros, whether stand-ins are asked for or not. -/
theorem names_settings (options : Options) (standIns : Bool) :
    (settings options standIns).map Prod.fst = names := by
  rw [settings, List.map_append, standInSettings, List.map_map]
  rfl

/-- Whether the header asks for the stand-ins. -/
def asksForStandIns (options : Options) (before : Table) : Bool :=
  options.sentinels.syncAtomics || (before (ofString Sentinels.syncAtomicsName)).isSome

/-- The names that are defined behind a header that is included for the first time. -/
def established (options : Options) (before : Table) : Table :=
  before.setAll (made (settings options (asksForStandIns options before)))

/-- What settings make of one another is what they make one after the other. -/
theorem made_append (settings more : List Setting) :
    made (settings ++ more) = made settings ++ made more :=
  List.filterMap_append

/-- No stand-in is made that is not asked for. -/
theorem made_standInSettings_false : made (standInSettings false) = [] := by
  rw [made, standInSettings, List.filterMap_map, List.filterMap_eq_nil_iff]
  exact fun builtin _ => rfl

/-- The name that asks for the stand-ins is defined behind the facts if it was before them, or if
they define it. -/
theorem isSome_openSettings (options : Options) (before : Table) :
    (before.setAll (made (openSettings options)) (ofString Sentinels.syncAtomicsName)).isSome =
      asksForStandIns options before := by
  have hmem : (ofString Sentinels.syncAtomicsName,
      if options.sentinels.syncAtomics then some (some ⟨none, ofString "1"⟩) else none) ∈
        openSettings options := by
    simp [openSettings, factSettings]
  have hnodup : ((openSettings options).map Prod.fst).Nodup := by
    have hsublist := List.sublist_append_left ((openSettings options).map Prod.fst)
      ((standInSettings true).map Prod.fst)
    rw [← List.map_append, ← settings, names_settings] at hsublist
    exact nodup_names.sublist hsublist
  rw [setAll_of_mem before hnodup hmem, asksForStandIns]
  cases options.sentinels.syncAtomics <;> rfl

/-- All groups of the header are closed again, and only a header that is not guarded sets names. -/
theorem foldlM_instructions (options : Options) (table : Table) :
    (instructions options).foldlM Progress.step ⟨table, []⟩ =
      some ⟨if (table (ofString guardName)).isSome then table else established options table,
        []⟩ := by
  simp only [instructions, List.foldlM_cons, List.foldlM_append, List.foldlM_nil,
    foldlM_instructionsFor, Progress.step, Option.bind_eq_bind, Option.bind_some, Option.pure_def]
  cases hguard : (table (ofString guardName)).isSome with
  | true => simp [Progress.isActive]
  | false =>
    -- The group of the stand-ins is opened behind the facts.
    have hasked := isSome_openSettings options table
    cases hstandIns : asksForStandIns options table with
    | true =>
      rw [hstandIns] at hasked
      simp [Progress.isActive, hasked, established, settings, made_append, setAll_append, hstandIns]
    | false =>
      rw [hstandIns] at hasked
      simp [Progress.isActive, hasked, established, settings, made_append, hstandIns,
        made_standInSettings_false]

/-- Including a header establishes its macros, unless the guard is defined already. -/
theorem include?_eq (options : Options) (table : Table) :
    include? (text options) table =
      some (if (table (ofString guardName)).isSome then table else established options table) := by
  rw [include?, text, (asks_lines options).instructionsOf_eq, foldlM_instructions,
    Option.bind_some, if_pos rfl]

/-! ## Establishing the facts -/

/-- The lexemes of the attribute. -/
theorem lexemes_attributeBody : lexemes [] attributeBody =
    [.word (ofString "__attribute__"), .mark Byte.openParen, .mark Byte.openParen,
      .word (ofString regionName), .mark Byte.closeParen, .mark Byte.closeParen] := by
  decide +kernel

/-- The tag of the managed region, with a text in the place of the region. -/
theorem exchange_attributeBody (region : Bytes) :
    exchange (fun name => if name = ofString regionName then some region else none)
      attributeBody = ofString "__attribute__((" ++ (region ++ ofString "))") := by
  have hother : ofString "__attribute__" ≠ ofString regionName := by decide +kernel
  rw [exchange, lexemes_attributeBody]
  simp only [List.flatMap_cons, List.flatMap_nil, exchangedText, if_neg hother, if_true,
    Option.getD_none, Option.getD_some, Lexeme.text]
  rfl

/-- What a header establishes, from the names that are defined before it. -/
structure Establishes (options : Options) (before after : Table) : Prop where
  /-- The header is guarded. -/
  guard : after (ofString guardName) = some ⟨none, []⟩
  /-- Block literals are not assumed, unless they are available. -/
  blocks : after (ofString Sentinels.blocksName) =
    if options.sentinels.blocksAvailable then before (ofString Sentinels.blocksName) else none
  /-- The source is known to be analysed. -/
  present : after (ofString Sentinels.presentName) =
    if options.sentinels.present then some ⟨none, ofString "1"⟩
    else before (ofString Sentinels.presentName)
  /-- The stand-ins are asked for if they are by the options. -/
  syncAtomics : after (ofString Sentinels.syncAtomicsName) =
    if options.sentinels.syncAtomics then some ⟨none, ofString "1"⟩
    else before (ofString Sentinels.syncAtomicsName)
  /-- The managed region is the one of the options. -/
  region : after (ofString regionName) =
    some ⟨none, ofString options.managedRegion.attributeText⟩
  /-- The tag of the managed region spells that region. -/
  tag : ∃ body, after (ofString attributeName) = some ⟨none, body⟩ ∧
    exchange (fun name => if name = ofString regionName then
        (after name).map Replacement.body else none) body =
      ofString s!"__attribute__(({options.managedRegion.attributeText}))"
  /-- If the stand-ins are asked for, every built-in is defined by the line of its stand-in. -/
  standIns : asksForStandIns options before → ∀ builtin : Builtin, ∃ replacement,
    instructionsOf (standIn builtin) = [some (.sets builtin.spelling (some replacement))] ∧
      replacement.parameters? = some ((parameters builtin).map ofString) ∧
      replacement.body = standInBody builtin ∧ after builtin.spelling = some replacement
  /-- If they are not, every built-in is left as it was. -/
  builtins : ¬ asksForStandIns options before → ∀ builtin : Builtin,
    after builtin.spelling = before builtin.spelling
  /-- All other names are left as they were. -/
  others : ∀ name ∉ names, after name = before name

section Established

variable (options : Options) (before : Table)

/-- A name that a header is about has what the header sets it to. -/
theorem established_of_mem {name : Bytes} {value? : Option (Option Replacement)}
    (hmem : (name, value?) ∈ settings options (asksForStandIns options before)) :
    established options before name = value?.getD (before name) := by
  refine setAll_of_mem before ?_ hmem
  rw [names_settings]
  exact nodup_names

/-- A built-in has its stand-in if stand-ins are asked for, and else what it had. -/
theorem established_spelling (builtin : Builtin) :
    established options before builtin.spelling =
      if asksForStandIns options before then some (standInReplacement builtin)
      else before builtin.spelling := by
  have hmem : (builtin.spelling, if asksForStandIns options before then
      some (some (standInReplacement builtin)) else none) ∈
        standInSettings (asksForStandIns options before) :=
    List.mem_map.mpr ⟨builtin, mem_all builtin, rfl⟩
  rw [established_of_mem options before (List.mem_append_right _ hmem)]
  cases asksForStandIns options before <;> rfl

/-- What a header establishes is what it is to establish. -/
theorem establishes_established : Establishes options before (established options before) := by
  have hopen {name : Bytes} {value? : Option (Option Replacement)}
      (hmem : (name, value?) ∈ openSettings options) :
      established options before name = value?.getD (before name) :=
    established_of_mem options before (List.mem_append_left _ hmem)
  have hguard : (ofString guardName, some (some ⟨none, []⟩)) ∈ openSettings options :=
    List.mem_cons_self
  have hblocks : (ofString Sentinels.blocksName,
      if options.sentinels.blocksAvailable then none else some none) ∈ openSettings options := by
    simp [openSettings, factSettings]
  have hpresent : (ofString Sentinels.presentName,
      if options.sentinels.present then some (some ⟨none, ofString "1"⟩) else none) ∈
        openSettings options := by
    simp [openSettings, factSettings]
  have hatomics : (ofString Sentinels.syncAtomicsName,
      if options.sentinels.syncAtomics then some (some ⟨none, ofString "1"⟩) else none) ∈
        openSettings options := by
    simp [openSettings, factSettings]
  have hregion : (ofString regionName,
      some (some ⟨none, ofString options.managedRegion.attributeText⟩)) ∈ openSettings options := by
    simp [openSettings]
  have htag : (ofString attributeName, some (some ⟨none, attributeBody⟩)) ∈
      openSettings options := by
    simp [openSettings]
  constructor
  case guard => exact hopen hguard
  case blocks =>
    rw [hopen hblocks]
    cases options.sentinels.blocksAvailable <;> rfl
  case present =>
    rw [hopen hpresent]
    cases options.sentinels.present <;> rfl
  case syncAtomics =>
    rw [hopen hatomics]
    cases options.sentinels.syncAtomics <;> rfl
  case region => exact hopen hregion
  case tag =>
    refine ⟨attributeBody, hopen htag, ?_⟩
    have hbody : (established options before (ofString regionName)).map Replacement.body =
        some (ofString options.managedRegion.attributeText) :=
      congrArg (Option.map Replacement.body) (hopen hregion)
    have hvalue : (fun name => if name = ofString regionName then
        (established options before name).map Replacement.body else none) =
        fun name => if name = ofString regionName then
          some (ofString options.managedRegion.attributeText) else none := by
      funext name
      by_cases hname : name = ofString regionName
      · rw [if_pos hname, if_pos hname, hname, hbody]
      · rw [if_neg hname, if_neg hname]
    rw [hvalue, exchange_attributeBody]
    simp only [ofString_append, List.append_assoc]
    rfl
  case standIns =>
    intro hasked builtin
    have hline := (asks_standIn builtin).instructions_eq
    rw [List.flatMap_singleton] at hline
    exact ⟨standInReplacement builtin, hline, rfl, rfl,
      (established_spelling options before builtin).trans (if_pos hasked)⟩
  case builtins =>
    intro hasked builtin
    exact (established_spelling options before builtin).trans (if_neg hasked)
  case others =>
    intro name hname
    refine setAll_of_notMem before ?_
    rwa [names_settings]

end Established

/-- The header establishes its facts wherever it is included. Whatever names are defined before it,
if its guard is not, all its groups are closed again and the names that are defined afterwards are
what its facts, its region and its stand-ins make of them. Including a header again changes
nothing. -/
theorem include?_text (options : Options) {before : Table}
    (hguard : before (ofString guardName) = none) :
    ∃ after, include? (text options) before = some after ∧ Establishes options before after ∧
      ∀ again, include? (text again) after = some after := by
  have hestablishes := establishes_established options before
  refine ⟨established options before, ?_, hestablishes, fun again => ?_⟩
  · rw [include?_eq, hguard]
    rfl
  · rw [include?_eq, hestablishes.guard]
    rfl

/-- The names that are defined where the stand-ins are asked for on the command line and block
literals are available. -/
def commandLine : Table :=
  Function.update (Function.update (fun _ => none) (ofString Sentinels.syncAtomicsName)
    (some ⟨none, ofString "1"⟩)) (ofString Sentinels.blocksName) (some ⟨none, ofString "1"⟩)

/-- A header that is included where a command line defines macros. -/
theorem include?_text_commandLine :
    ∃ after, include? (text ⟨{ syncAtomics := false }, ⟨7⟩⟩) commandLine = some after ∧
      after (ofString Sentinels.blocksName) = none ∧
      after (ofString regionName) = some ⟨none, ofString "__region(7)"⟩ ∧
      (∀ builtin : Builtin, (after builtin.spelling).isSome) ∧
      after (ofString "__GNUC__") = none ∧
      include? (text ⟨{ syncAtomics := false }, ⟨7⟩⟩) after = some after := by
  have hguard : commandLine (ofString guardName) = none := by decide +kernel
  have hasked : asksForStandIns ⟨{ syncAtomics := false }, ⟨7⟩⟩ commandLine := by decide +kernel
  obtain ⟨after, hafter, hestablishes, hagain⟩ :=
    include?_text ⟨{ syncAtomics := false }, ⟨7⟩⟩ hguard
  refine ⟨after, hafter, hestablishes.blocks, hestablishes.region, fun builtin => ?_, ?_, hagain _⟩
  · obtain ⟨replacement, -, -, -, hdefined⟩ := hestablishes.standIns hasked builtin
    rw [hdefined]
    rfl
  · rw [hestablishes.others _ (by decide +kernel)]
    decide +kernel

end PlainSync.Header
