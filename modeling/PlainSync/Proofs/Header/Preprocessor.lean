import Mathlib.Data.List.DropRight
import Mathlib.Logic.Function.Basic
import PlainSync.Proofs.Source.Tokens

/-!
# Preprocessing

Directives define and undefine names and enclose groups of lines. In a group that is not taken
they only tell where groups end. A text is included by following its directives in order. That
fails where a directive is of another kind, where a group is closed that was not opened and where
one is left open.
-/

namespace PlainSync.Header

open Source Bytes

/-! ## Directives -/

/-- What a name stands for. -/
structure Replacement where
  /-- The parameters, if the name is used with arguments. -/
  parameters? : Option (List Bytes)
  body : Bytes
  deriving DecidableEq, Repr

/-- What a directive asks for. -/
inductive Instruction where
  /-- Open a group that is taken if a name is defined, or if it is not. -/
  | opens (defined : Bool) (name : Bytes)
  /-- Close the group that was opened last. -/
  | closes
  /-- Define a name, or undefine it. -/
  | sets (name : Bytes) (replacement? : Option Replacement)
  deriving DecidableEq, Repr

/-- The text of a unit, with a space for a comment. -/
def blankedText : Lexeme → Bytes
  | .trivia text => if text.head? = some Byte.slash then [Byte.space] else text
  | unit => unit.text

/-- A text on one line with a space for each comment. -/
def uncommented (text : Bytes) : Bytes := (unitsOf text).flatMap blankedText

/-- A text without the white space at its ends. -/
def strip (text : Bytes) : Bytes := (text.dropWhile isSpace).rdropWhile isSpace

/-- What is written behind a name that is defined. An opening parenthesis right behind the name
begins its parameters. -/
def Replacement.ofText : Bytes → Replacement
  | [] => ⟨none, []⟩
  | b :: rest =>
    if b = Byte.openParen then
      let written := rest.takeWhile (· ≠ Byte.closeParen)
      ⟨some (((written.splitOnP (· = Byte.comma)).map strip).filter (· ≠ [])),
        strip (rest.dropWhile (· ≠ Byte.closeParen)).tail⟩
    else ⟨none, strip (b :: rest)⟩

/-- What the line of a directive without its hash mark and without comments asks for, if it is of
one of the kinds that are followed. -/
def Instruction.ofLine? (line : Bytes) : Option Instruction :=
  let keyword := line.takeWhile Byte.continuesIdentifier
  let operand := strip (line.dropWhile Byte.continuesIdentifier)
  let name := operand.takeWhile Byte.continuesIdentifier
  if keyword = ofString "endif" then some .closes
  else if name = [] then none
  else if keyword = ofString "ifdef" then some (.opens true name)
  else if keyword = ofString "ifndef" then some (.opens false name)
  else if keyword = ofString "undef" then some (.sets name none)
  else if keyword = ofString "define" then
    some (.sets name (some (.ofText (operand.dropWhile Byte.continuesIdentifier))))
  else none

/-- What a directive asks for. -/
def Instruction.ofDirective? (directive : Bytes) : Option Instruction :=
  Instruction.ofLine? (strip (uncommented directive.tail))

/-- The text of a directive. -/
def directive? : Lexeme → Option Bytes
  | .directive text => some text
  | _ => none

/-- What the directives of a text without splices ask for, in order. -/
def instructionsOf (text : Bytes) : List (Option Instruction) :=
  ((units true text).filterMap directive?).map Instruction.ofDirective?

/-! ## Inclusion -/

/-- The names that are defined, with what they stand for. -/
abbrev Table := Bytes → Option Replacement

/-- How far a text has been included. -/
structure Progress where
  table : Table
  /-- Whether each open group is taken, the one that was opened last coming first. -/
  groups : List Bool

namespace Progress

/-- All open groups are taken. -/
def isActive (progress : Progress) : Bool := progress.groups.all id

/-- Follow a directive. -/
def step (progress : Progress) : Option Instruction → Option Progress
  | some (.opens defined name) =>
    some { progress with groups := ((progress.table name).isSome == defined) :: progress.groups }
  | some .closes =>
    match progress.groups with
    | [] => none
    | _ :: outer => some { progress with groups := outer }
  | some (.sets name replacement?) =>
    some (if progress.isActive then
      { progress with table := Function.update progress.table name replacement? } else progress)
  | none => if progress.isActive then none else some progress

end Progress

/-- The names that are defined after a text was included. -/
def include? (text : Bytes) (table : Table) : Option Table :=
  ((instructionsOf (unspliced text)).foldlM Progress.step ⟨table, []⟩).bind fun progress =>
    if progress.groups = [] then some progress.table else none

/-! ## Settings -/

/-- Set names one after the other. -/
def Table.setAll (table : Table) (settings : List (Bytes × Option Replacement)) : Table :=
  settings.foldl (fun table setting => Function.update table setting.1 setting.2) table

/-- The directives that set names. -/
def instructionsFor (settings : List (Bytes × Option Replacement)) : List (Option Instruction) :=
  settings.map fun setting => some (.sets setting.1 setting.2)

/-- A name with what it is set to, unless it is left alone. -/
abbrev Setting := Bytes × Option (Option Replacement)

/-- The settings that set something. -/
def made (settings : List Setting) : List (Bytes × Option Replacement) :=
  settings.filterMap fun setting => setting.2.map (Prod.mk setting.1)

section Settings

variable {settings : List Setting} {name : Bytes}

/-- A name that is not among settings stays as it is. -/
theorem setAll_of_notMem (table : Table) (hname : name ∉ settings.map Prod.fst) :
    table.setAll (made settings) name = table name := by
  induction settings generalizing table with
  | nil => rfl
  | cons setting more ih =>
    obtain ⟨other, value?⟩ := setting
    obtain ⟨hother, hmore⟩ := not_or.mp (mt List.mem_cons.mpr hname)
    cases value? with
    | none => exact ih table hmore
    | some replacement? =>
      exact (ih (Function.update table other replacement?) hmore).trans
        (Function.update_of_ne hother _ _)

/-- A name that is among settings once is set to what it says there. -/
theorem setAll_of_mem (table : Table) (hnodup : (settings.map Prod.fst).Nodup)
    {value? : Option (Option Replacement)} (hmem : (name, value?) ∈ settings) :
    table.setAll (made settings) name = value?.getD (table name) := by
  induction settings generalizing table with
  | nil => cases hmem
  | cons setting more ih =>
    obtain ⟨other, otherValue?⟩ := setting
    obtain ⟨hother, hmore⟩ := List.nodup_cons.mp hnodup
    rcases List.mem_cons.mp hmem with hfirst | hlater
    · cases hfirst
      have hkept (table : Table) : table.setAll (made more) name = table name :=
        setAll_of_notMem table hother
      cases value? with
      | none => exact hkept table
      | some replacement? => exact (hkept _).trans (Function.update_self _ _ _)
    · have hne : name ≠ other := by
        rintro rfl
        exact hother (List.mem_map.mpr ⟨_, hlater, rfl⟩)
      cases otherValue? with
      | none => exact ih table hmore hlater
      | some replacement? =>
        have hset := ih (Function.update table other replacement?) hmore hlater
        rw [Function.update_of_ne hne] at hset
        exact hset

/-- Macros are set one after the other. -/
theorem setAll_append (table : Table) (settings more : List (Bytes × Option Replacement)) :
    table.setAll (settings ++ more) = (table.setAll settings).setAll more :=
  List.foldl_append

/-- Names are set where all groups are taken, and only there. -/
theorem foldlM_instructionsFor (settings : List (Bytes × Option Replacement))
    (progress : Progress) :
    (instructionsFor settings).foldlM Progress.step progress =
      some (if progress.isActive then { progress with table := progress.table.setAll settings }
        else progress) := by
  induction settings generalizing progress with
  | nil =>
    cases progress.isActive <;> rfl
  | cons setting more ih =>
    rw [instructionsFor, List.map_cons, List.foldlM_cons, Progress.step]
    cases hactive : progress.isActive with
    | false =>
      have hmore := ih progress
      rw [hactive] at hmore
      exact hmore
    | true =>
      have hmore := ih { progress with
        table := Function.update progress.table setting.1 setting.2 }
      have hsame : Progress.isActive { progress with
          table := Function.update progress.table setting.1 setting.2 } = true := hactive
      rw [hsame] at hmore
      exact hmore

end Settings

end PlainSync.Header
