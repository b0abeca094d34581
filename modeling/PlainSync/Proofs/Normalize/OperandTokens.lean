import PlainSync.Proofs.Normalize.BlankedUnits
import PlainSync.Proofs.Normalize.NestedSites
import PlainSync.Proofs.Normalize.Operands

/-!
# Tokens of operands

Every operand of an expansion stands in parentheses of its own. If C reads the argument that it is
made from, and no call in the argument is replaced, C reads the same tokens between the parentheses,
where the operand is evaluated and inside `typeof`.
-/

namespace PlainSync.Source

open Bytes Reading

/-! ## Places of operands -/

/-- The argument that a place of an expansion is filled from. -/
def argumentIndex? : Slot → Option Nat
  | .pointer | .pointerType => some 0
  | .value index => some (index + 1)
  | .pointerName | .savedName => none

/-- Whether every operand in a template is one of the first `count` and has parentheses of its own.
`opened` tells whether an opening parenthesis stands in front. -/
def enclosed (count : Nat) (opened : Bool) : List Symbol → Bool
  | [] => true
  | .byte b :: more => enclosed count (b = Byte.openParen) more
  | .slot place :: more =>
    (argumentIndex? place).all (fun index =>
      opened && index < count && more.head? = some (.byte Byte.closeParen)) &&
        enclosed count false more

/-- Every argument stands in parentheses in its expansion. -/
theorem enclosed_template (builtin : Builtin) :
    enclosed builtin.operandCount false (template builtin) := by
  cases builtin with
  | fetchAndOp update | opAndFetch update => cases update <;> decide +kernel
  | _ => decide +kernel

/-- An argument that is enclosed has a parenthesis on either side. -/
theorem exists_parentheses {count index : Nat} {opened : Bool} {front back : List Symbol}
    {place : Slot} (henclosed : enclosed count opened (front ++ .slot place :: back))
    (hindex : argumentIndex? place = some index) :
    (front = [] ∧ opened ∨ ∃ front', front = front' ++ [.byte Byte.openParen]) ∧ index < count ∧
      ∃ back', back = .byte Byte.closeParen :: back' := by
  induction front generalizing opened with
  | nil =>
    rw [List.nil_append, enclosed, hindex, Option.all_some] at henclosed
    simp only [Bool.and_eq_true, decide_eq_true_eq] at henclosed
    obtain ⟨⟨⟨hopened, hcount⟩, hclosed⟩, -⟩ := henclosed
    obtain ⟨back', rfl⟩ := List.head?_eq_some_iff.mp hclosed
    exact ⟨.inl ⟨rfl, hopened⟩, hcount, back', rfl⟩
  | cons symbol front ih =>
    cases symbol with
    | byte b =>
      obtain ⟨⟨rfl, hb⟩ | ⟨front', rfl⟩, hinside⟩ := ih henclosed
      · obtain rfl := of_decide_eq_true hb
        exact ⟨.inr ⟨[], rfl⟩, hinside⟩
      · exact ⟨.inr ⟨.byte b :: front', rfl⟩, hinside⟩
    | slot other =>
      rw [List.cons_append, enclosed, Bool.and_eq_true] at henclosed
      obtain ⟨⟨-, hopened⟩ | ⟨front', rfl⟩, hinside⟩ := ih henclosed.2
      · cases hopened
      · exact ⟨.inr ⟨.slot other :: front', rfl⟩, hinside⟩

/-! ## Arguments without calls -/

/-- What is replaced in a source does not depend on the sources in front of it. -/
theorem expanded_normalize {session session' : Session} (hconfig : session'.config = session.config)
    (source : Bytes) : (session'.normalize source).1.report.expanded =
      (session.normalize source).1.report.expanded := by
  unfold Session.normalize
  rw [hconfig]
  split <;> rfl

/-- A source without calls is its own normalization. -/
theorem text_normalize_of_expanded {session : Session} {source : Bytes}
    (hnone : (session.normalize source).1.report.expanded = []) :
    (session.normalize source).1.text = source := by
  obtain ⟨replacements, hreplaces⟩ := (exists_replaces_normalize session source).1
  have hexpanded := hreplaces.expanded
  rw [hnone] at hexpanded
  cases replacements with
  | nil => exact hreplaces.text
  | cons replacement more => simp [Replacement.expanded] at hexpanded

namespace Replacement

variable {call : Replacement} {config : Config}

/-- The operand that is made from an argument without calls. -/
theorem getElem?_operandTexts {index : Nat} {argument : Bytes}
    (hindex : index < call.builtin.operandCount)
    (hargument : call.list.arguments[index]? = some argument) {session : Session}
    (hconfig : session.config = config)
    (hnone : (session.normalize argument).1.report.expanded = []) :
    ((call.operands config).1.map fun operand => operandText operand.text)[index]? =
      some (operandText argument) := by
  have htaken : (call.list.arguments.take call.builtin.operandCount)[index]? = some argument := by
    rwa [List.getElem?_take_of_lt hindex]
  obtain ⟨hlength, hget⟩ := List.getElem?_eq_some_iff.mp htaken
  have hsplit : call.list.arguments.take call.builtin.operandCount =
      (call.list.arguments.take call.builtin.operandCount).take index ++ argument ::
        (call.list.arguments.take call.builtin.operandCount).drop (index + 1) := by
    rw [← hget, List.getElem_cons_drop, List.take_append_drop]
  have hpassed : ((call.list.arguments.take call.builtin.operandCount).take index).length =
      index := by
    rw [List.length_take]
    omega
  generalize (call.list.arguments.take call.builtin.operandCount).take index = passed
    at hsplit hpassed
  subst hpassed
  have hrendered : ((Session.normalizeAll ⟨config, call.site⟩ passed).2.normalize
      argument).1.text = argument := by
    have hsame : (Session.normalizeAll ⟨config, call.site⟩ passed).2.config = session.config := by
      rw [config_normalizeAll, hconfig]
    exact text_normalize_of_expanded ((expanded_normalize hsame argument).trans hnone)
  rw [List.getElem?_map, operands, hsplit, getElem?_normalizeAll, Option.map_some, hrendered]

/-- What a place is filled with if it is filled from such an argument. -/
theorem text_of_argumentIndex? {place : Slot} {index : Nat} {argument : Bytes} {session : Session}
    (hplace : argumentIndex? place = some index) (hindex : index < call.builtin.operandCount)
    (hargument : call.list.arguments[index]? = some argument) (hconfig : session.config = config)
    (hnone : (session.normalize argument).1.report.expanded = []) :
    place.text (call.filled config) (call.names config) = operandText argument ∨
      place.text (call.filled config) (call.names config) =
        onOneLine [] (operandText argument) := by
  have hoperand := getElem?_operandTexts hindex hargument hconfig hnone
  rw [filled]
  cases place with
  | pointer =>
    obtain rfl := Option.some.inj hplace
    rw [← List.head?_eq_getElem?] at hoperand
    left
    rw [Slot.text, callOperands, hoperand]
    rfl
  | pointerType =>
    obtain rfl := Option.some.inj hplace
    rw [← List.head?_eq_getElem?] at hoperand
    right
    rw [Slot.text, callOperands, hoperand]
    rfl
  | value index =>
    obtain rfl := Option.some.inj hplace
    rw [← List.getElem?_tail] at hoperand
    left
    rw [Slot.text, callOperands, hoperand]
    rfl
  | pointerName => cases hplace
  | savedName => cases hplace

end Replacement

/-! ## Arguments that C reads -/

/-- C reads the units that the scan cuts an argument into: its literals and comments are closed, a
splice stands in a literal, in a block comment or beside white space, and no stray bytes are in
it. -/
structure Readable (argument : Bytes) : Prop where
  closed : ∀ unit ∈ cutsOf argument,
    unit = .mark Byte.hash ∨ Complete unit.text ∨ isLineComment unit.text
  settled : SettledApart true (cutsOf argument)
  strayless : Strayless (cutsOf argument)

instance (argument : Bytes) : Decidable (Readable argument) :=
  decidable_of_iff
    ((∀ unit ∈ cutsOf argument,
        unit = .mark Byte.hash ∨ Complete unit.text ∨ isLineComment unit.text) ∧
      SettledApart true (cutsOf argument) ∧ Strayless (cutsOf argument))
    ⟨fun h => ⟨h.1, h.2.1, h.2.2⟩, fun h => ⟨h.closed, h.settled, h.strayless⟩⟩

/-- A complete unit is over. -/
theorem over_of_complete {unit : Lexeme} {behind : Bytes} (hunit : unit.ReadBefore behind)
    (hcomplete : Complete unit.text) : unit.Over := by
  rcases id hunit with rfl | hstands
  · exact .inl rfl
  · obtain ⟨b, rest, htext⟩ := List.exists_cons_of_ne_nil hunit.text_ne_nil
    exact .inr (hcomplete.firm (hstands.nextLexeme_eq htext []))

/-- A readable argument is cut into legible units. -/
theorem Readable.legible {argument : Bytes} (hreadable : Readable argument) :
    Legible (cutsOf argument) where
  read := readUpTo_cutsOf argument
  sound := by
    intro unit hunit
    obtain ⟨rest, hread⟩ := (readUpTo_cutsOf argument).exists_readBefore unit hunit
    rcases hreadable.closed unit hunit with hhash | hcomplete | hcomment
    · exact .inl (.inl hhash)
    · exact .inl (over_of_complete hread hcomplete)
    · exact .inr hcomment
  settled := hreadable.settled

/-- An operand of an expansion, in parentheses of its own between `front` and `back`, in which C
reads the tokens of an argument. -/
structure KeepsTokens (config : Config) (call : Replacement) (front back : List Symbol)
    (operand argument : Bytes) : Prop where
  text : call.text config =
    fill (call.filled config) (call.names config) front ++
      (Byte.openParen :: operand ++ Byte.closeParen ::
        (fill (call.filled config) (call.names config) back ++ call.padding config))
  runs : runsOf operand = runsOf argument
  /-- What C reads between the parentheses is the operand. -/
  apart : ∀ behind, unitsOf (unspliced (Byte.openParen :: operand ++ Byte.closeParen :: behind)) =
    .mark Byte.openParen :: unitsOf (unspliced operand) ++
      .mark Byte.closeParen :: unitsOf (unspliced behind)

/-- The texts that are made from a readable argument. -/
theorem Readable.reads_operand {argument operand : Bytes} (hreadable : Readable argument)
    (hoperand : operand = operandText argument ∨ operand = onOneLine [] (operandText argument)) :
    ∃ list, textOf list = operand ∧ Legible list ∧ (∀ unit ∈ list, unit.Over) ∧
      runsOf operand = runsOf argument := by
  obtain ⟨list, htext, hlegible, hstrayless, hruns, hover⟩ :=
    hreadable.legible.exists_operandText hreadable.strayless
  have hargument := hreadable.legible.runsOf
  rw [textOf_cutsOf] at htext hargument
  rcases hoperand with rfl | rfl
  · refine ⟨list, htext, hlegible, hover, ?_⟩
    rw [← htext, hlegible.runsOf, hruns, hargument]
  · obtain ⟨line, hline, hlineLegible, hlineRuns, hlineOver⟩ :=
      hlegible.exists_onOneLine hstrayless
    rw [htext] at hline
    refine ⟨line, hline, hlineLegible, hlineOver, ?_⟩
    rw [← hline, hlineLegible.runsOf, hlineRuns, hruns, hargument]

/-! ## Replaced calls -/

/-- The calls of a source that a session replaces, calls in their arguments aside. -/
def replacedCalls (session : Session) (source : Bytes) : List Replacement :=
  if session.config.normalizeAtomics then replacementsOf session.site 0 (outline 1 [] source)
  else []

/-- What a session replaces are its replaced calls. -/
theorem replaces_replacedCalls (session : Session) (source : Bytes) :
    Replaces session.config source 0 session.site (session.normalize source).1.text
      (session.normalize source).1.report.expanded (replacedCalls session source) := by
  unfold replacedCalls Session.normalize
  split
  · next henabled =>
    exact replaces_outline henabled 1 [] source source session.site rfl (wordsEnd_nil _)
  · exact ⟨nofun, .nil, nofun, nofun, trivial, rfl, rfl⟩

/-- A replaced call has the arguments that it needs. -/
theorem operandCount_le_of_mem_replacedCalls {session : Session} {source : Bytes}
    {call : Replacement} (hcall : call ∈ replacedCalls session source) :
    call.builtin.operandCount ≤ call.list.arguments.length := by
  unfold replacedCalls at hcall
  split at hcall
  · have hsites := surveyed source 1 [] source 1 [] [] (by simp) rfl session.site
    obtain ⟨gap, behind, -, hcount⟩ :=
      (hsites.judged _ (mem_sitesOf_of_mem_replacementsOf hcall)).replaced call.list rfl
    exact hcount
  · cases hcall

/-- The replaced calls of a source are exchanged for expansions in which every operand has
parentheses of its own and an argument that it is made from. If no call in the argument is replaced
and C reads the argument, C reads the same tokens between the parentheses. -/
theorem keepsTokens_of_replacedCalls (session : Session) (source : Bytes) :
    Replaces session.config source 0 session.site (session.normalize source).1.text
        (session.normalize source).1.report.expanded (replacedCalls session source) ∧
      ∀ call ∈ replacedCalls session source, ∀ front place back,
        template call.builtin = front ++ .slot place :: back →
          ∀ index, argumentIndex? place = some index →
            ∃ argument front' back', call.list.arguments[index]? = some argument ∧
              front = front' ++ [.byte Byte.openParen] ∧
              back = .byte Byte.closeParen :: back' ∧
              ((session.normalize argument).1.report.expanded = [] → Readable argument →
                KeepsTokens session.config call front' back'
                  (place.text (call.filled session.config) (call.names session.config))
                  argument) := by
  have hreplaces := replaces_replacedCalls session source
  refine ⟨hreplaces, fun call hcall front place back htemplate index hplace => ?_⟩
  have henclosed := enclosed_template call.builtin
  rw [htemplate] at henclosed
  obtain ⟨⟨-, hopened⟩ | ⟨front', rfl⟩, hindex, back', rfl⟩ := exists_parentheses henclosed hplace
  · cases hopened
  have hlength := operandCount_le_of_mem_replacedCalls hcall
  have hargument := List.getElem?_eq_getElem (Nat.lt_of_lt_of_le hindex hlength)
  refine ⟨_, front', back', hargument, rfl, rfl, fun hnone hreadable => ?_⟩
  have hoperand := call.text_of_argumentIndex? hplace hindex hargument rfl hnone
  obtain ⟨list, htext, hlegible, hover, hruns⟩ := hreadable.reads_operand hoperand
  refine ⟨?_, hruns, fun behind => ?_⟩
  · rw [Replacement.text_eq_fill (hreplaces.expands call hcall), htemplate]
    simp [fill, Symbol.text]
  · rw [← htext]
    exact hlegible.unitsOf_parenthesized hover behind

/-- Arguments with splices in a comment, in a literal and beside white space. -/
def splicedArguments : Bytes :=
  ofString "__sync_fetch_and_add( v->n /* \\\n p */ , " ++
    ofString "\\\n f(\"a\\\nb\", // c\n 10 + \\\n 2) // d\n )"

/-- The call with these arguments. -/
def splicedCall : Replacement :=
  ⟨0, .fetchAndOp .add, [],
    ⟨ofString " v->n /* \\\n p */ ",
      [ofString " \\\n f(\"a\\\nb\", // c\n 10 + \\\n 2) // d\n "], []⟩, 0⟩

/-- Both operands of a call with splices keep their tokens. -/
theorem keepsTokens_of_splicedCall :
    (∃ front back, KeepsTokens {} splicedCall front back (ofString "v->n  ")
      (ofString " v->n /* \\\n p */ ")) ∧
    ∃ front back, KeepsTokens {} splicedCall front back
      (ofString "\\\n f(\"a\\\nb\",  \n 10 + \\\n 2)")
      (ofString " \\\n f(\"a\\\nb\", // c\n 10 + \\\n 2) // d\n ") := by
  obtain ⟨-, hcalls⟩ := keepsTokens_of_replacedCalls { config := {} } splicedArguments
  have hcall : splicedCall ∈ replacedCalls { config := {} } splicedArguments := by decide +kernel
  constructor
  · obtain ⟨argument, front, back, hargument, -, -, hkeeps⟩ :=
      hcalls splicedCall hcall ((template (.fetchAndOp .add)).take 11) .pointerType
        ((template (.fetchAndOp .add)).drop 12) (by decide +kernel) 0 rfl
    cases hargument
    have hplace : Slot.pointerType.text (splicedCall.filled {}) (splicedCall.names {}) =
        ofString "v->n  " := by decide +kernel
    exact ⟨front, back, hplace ▸ hkeeps (by decide +kernel) (by decide +kernel)⟩
  · obtain ⟨argument, front, back, hargument, -, -, hkeeps⟩ :=
      hcalls splicedCall hcall ((template (.fetchAndOp .add)).take 50) (.value 0)
        ((template (.fetchAndOp .add)).drop 51) (by decide +kernel) 1 rfl
    cases hargument
    have hplace : (Slot.value 0).text (splicedCall.filled {}) (splicedCall.names {}) =
        ofString "\\\n f(\"a\\\nb\",  \n 10 + \\\n 2)" := by decide +kernel
    exact ⟨front, back, hplace ▸ hkeeps (by decide +kernel) (by decide +kernel)⟩

/-- A splice in a name is two spaces inside `typeof`, trimming takes the line end of a splice at the
end of an argument, and a line comment is dropped up to a splice in it only. -/
theorem units_ne_of_splices :
    (ofString "typeof((&coun  ter))" <:+:
        (normalize {} (ofString "__sync_fetch_and_add(&coun\\\nter, 1)")).text ∧
      (runsOf (ofString "&coun  ter")).flatten ≠ (runsOf (ofString "&coun\\\nter")).flatten) ∧
    ((normalize {} (ofString "__sync_add_and_fetch(p, 1 \\\n)")).text =
        ofString "(*(p) += (1 \\))\n" ∧
      (runsOf (ofString "1 \\")).flatten ≠ (runsOf (ofString " 1 \\\n")).flatten) ∧
    (normalize {} (ofString "__sync_add_and_fetch(p, 1 // c \\\n d\n)")).text =
        ofString "(*(p) += (1  \n d))\n" ∧
      (runsOf (ofString "1  \n d")).flatten ≠ (runsOf (ofString " 1 // c \\\n d\n")).flatten := by
  decide +kernel

end PlainSync.Source
