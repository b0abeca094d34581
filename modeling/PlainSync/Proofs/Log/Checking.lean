import Mathlib.Data.List.TakeWhile
import PlainSync.Log.Validation
import PlainSync.Machine.World
import PlainSync.Proofs.Json.Trimming
import PlainSync.Proofs.Log.Texts

/-!
# What checking a text finds

Checking a log counts the lines that are not blank and finds the faults of each of these, with the
number that the line has among all lines, the blank ones included. This does not depend on how the
lines end: a carriage return in front of a line feed is a blank at the end of the line, and a last
line with nothing on it is blank.
-/

namespace PlainSync

/-! ## Lines -/

/-- A text consists of lines. A line feed ends a line, with or without a carriage return in front
of it. The last line may end with the text. -/
inductive ConsistsOf : List Char → List (List Char) → Prop
  | empty : ConsistsOf [] []
  | last {line : List Char} (hline : '\n' ∉ line) : ConsistsOf line [line]
  | lineFeed (line : List Char) {rest : List Char} {more : List (List Char)}
      (hline : '\n' ∉ line) (hmore : ConsistsOf rest more) :
      ConsistsOf (line ++ '\n' :: rest) (line :: more)
  | carriageReturn (line : List Char) {rest : List Char} {more : List (List Char)}
      (hline : '\n' ∉ line) (hmore : ConsistsOf rest more) :
      ConsistsOf (line ++ '\r' :: '\n' :: rest) (line :: more)

/-- A text consists of the parts between its line feeds. -/
theorem consistsOf_splitOn (text : List Char) : ConsistsOf text (splitOn '\n' text) := by
  by_cases hbreak : '\n' ∈ text
  · obtain ⟨line, rest, htext, hline⟩ := List.eq_append_cons_of_mem hbreak
    have hshorter : rest.length < text.length := by
      rw [htext, List.length_append, List.length_cons]
      omega
    rw [htext, splitOn_append hline]
    exact .lineFeed line hline (consistsOf_splitOn rest)
  · rw [splitOn_eq_singleton hbreak]
    exact .last hbreak
termination_by text.length

/-! ## Blanks -/

/-- Blanks at the end of a text are trimmed. -/
theorem trimBlanks_append (text : List Char) {back : List Char}
    (hback : ∀ c ∈ back, isBlankChar c = true) : trimBlanks (text ++ back) = trimBlanks text := by
  unfold trimBlanks
  rw [List.dropWhile_append]
  split
  · next hempty =>
    rw [List.isEmpty_iff.mp hempty, List.dropWhile_eq_nil_iff.mpr hback]
  · have hreverse : ∀ c ∈ back.reverse, isBlankChar c = true := fun c hc =>
      hback c (List.mem_reverse.mp hc)
    rw [List.reverse_append, List.dropWhile_append_of_pos hreverse]

/-- A line that is accepted is accepted without the blanks around it. -/
theorem validateLine_trimString {line : String} {entry : LogEntry}
    (hline : validateLine line = .ok entry) : validateLine (trimString line) = .ok entry := by
  unfold validateLine at hline ⊢
  cases hvalue : Json.parse? line with
  | none =>
    rw [hvalue] at hline
    cases hline
  | some value =>
    rw [hvalue] at hline
    rw [Json.parse?_trimString hvalue, hline]

/-- Something stands on a line that is not blank. -/
def isFilled (line : List Char) : Bool := !(trimBlanks line).isEmpty

/-- A line that is accepted is not blank. -/
theorem isFilled_of_validateLine {line : List Char} {entry : LogEntry}
    (hline : validateLine (String.ofList line) = .ok entry) : isFilled line = true := by
  have htrimmed := validateLine_trimString hline
  rw [trimString, String.toList_ofList] at htrimmed
  cases hempty : trimBlanks line with
  | nil =>
    have hnothing : Json.parse? (String.ofList []) = none := by
      rw [Json.parse?, Json.ofChars?, String.toList_ofList, Json.tokens]
      rfl
    rw [hempty, validateLine, hnothing] at htrimmed
    cases htrimmed
  | cons c more =>
    rw [isFilled, hempty]
    rfl

/-! ## Findings -/

/-- What is found on a line with a number. -/
def findingsOn (line : List Char × Nat) : List LogFinding :=
  (lineFaults (String.ofList (trimBlanks line.1))).map (LogFinding.mk line.2)

/-- What is found on lines the first of which has a number. The blank ones are left out. -/
def findingsFrom (number : Nat) (lines : List (List Char)) : List LogFinding :=
  ((lines.zipIdx number).filter fun line => isFilled line.1).flatMap findingsOn

/-- The findings on the first line come first. -/
theorem findingsFrom_cons (number : Nat) (line : List Char) (more : List (List Char)) :
    findingsFrom number (line :: more) =
      (if isFilled line then findingsOn (line, number) else []) ++
        findingsFrom (number + 1) more := by
  rw [findingsFrom, List.zipIdx_cons, List.filter_cons]
  cases isFilled line with
  | true => rfl
  | false => rfl

/-- Nothing is found on a line that is accepted. -/
theorem findingsOn_of_validateLine {line : List Char} {entry : LogEntry}
    (hline : validateLine (String.ofList line) = .ok entry) (number : Nat) :
    findingsOn (line, number) = [] := by
  have htrimmed := validateLine_trimString hline
  rw [trimString, String.toList_ofList] at htrimmed
  rw [findingsOn, lineFaults, htrimmed, List.map_nil]

/-- Lines are counted if they are filled, and the findings are those on them. -/
theorem validateLines_eq (number : Nat) (lines : List (List Char)) :
    validateLines number lines = (lines.countP isFilled, findingsFrom number lines) := by
  induction lines generalizing number with
  | nil => rfl
  | cons line more ih =>
    rw [validateLines, ih, List.countP_cons, findingsFrom_cons, isFilled]
    cases hempty : (trimBlanks line).isEmpty with
    | true => simp only [hempty]; rfl
    | false => simp only [hempty]; rfl

/-- However the lines of a text end, checking the text checks its lines. -/
theorem validateLines_splitOn {text : List Char} {lines : List (List Char)}
    (hlines : ConsistsOf text lines) (number : Nat) :
    validateLines number (splitOn '\n' text) = validateLines number lines := by
  induction hlines generalizing number with
  | empty => rfl
  | last hline => rw [splitOn_eq_singleton hline]
  | lineFeed line hline _ ih => rw [splitOn_append hline, validateLines, validateLines, ih]
  | carriageReturn line hline _ ih =>
    have hreturn : '\n' ∉ line ++ ['\r'] := by simp [hline]
    have htrim : trimBlanks (line ++ ['\r']) = trimBlanks line :=
      trimBlanks_append line (List.all_eq_true.mp rfl)
    rw [List.append_cons, splitOn_append hreturn, validateLines, validateLines, ih, htrim]

/-! ## Files -/

/-- Lines with blank ones between them. -/
inductive WithBlankLines : List (List Char) → List (List Char) → Prop
  | nil : WithBlankLines [] []
  | cons (line : List Char) {lines more : List (List Char)} (hmore : WithBlankLines lines more) :
    WithBlankLines (line :: lines) (line :: more)
  | blank {line : List Char} (hline : isFilled line = false) {lines more : List (List Char)}
      (hmore : WithBlankLines lines more) : WithBlankLines lines (line :: more)

/-- What checking a log with these lines gives. -/
structure ChecksAs (lines : List (List Char)) (count : Nat) (findings : List LogFinding) :
    Prop where
  /-- The lines that are not blank are counted. -/
  count_eq : count = lines.countP isFilled
  /-- The faults of these lines are found in order, each with the number of its line among all
  lines. -/
  findings_eq : findings = findingsFrom 1 lines
  /-- Lines that are all accepted, with any blank lines between them, are counted and nothing is
  found on them. -/
  of_accepted : ∀ accepted, WithBlankLines accepted lines →
    (∀ line ∈ accepted, ∃ entry, validateLine (String.ofList line) = .ok entry) →
    count = accepted.length ∧ findings = []

/-- Blank lines between accepted ones are not counted, and nothing is found. -/
theorem WithBlankLines.validateLines_eq {accepted lines : List (List Char)}
    (hlines : WithBlankLines accepted lines)
    (haccepted : ∀ line ∈ accepted, ∃ entry, validateLine (String.ofList line) = .ok entry)
    (number : Nat) : validateLines number lines = (accepted.length, []) := by
  induction hlines generalizing number with
  | nil => rfl
  | cons line _ ih =>
    obtain ⟨⟨entry, hline⟩, hmore⟩ := List.forall_mem_cons.mp haccepted
    have ihmore := ih hmore (number + 1)
    rw [PlainSync.validateLines_eq, Prod.mk.injEq] at ihmore ⊢
    rw [List.countP_cons, findingsFrom_cons, isFilled_of_validateLine hline, if_pos rfl, if_pos rfl,
      findingsOn_of_validateLine hline, ihmore.1, ihmore.2]
    exact ⟨rfl, rfl⟩
  | blank hline _ ih =>
    have ihmore := ih haccepted (number + 1)
    rw [PlainSync.validateLines_eq, Prod.mk.injEq] at ihmore ⊢
    rw [List.countP_cons, findingsFrom_cons, hline, if_neg nofun, if_neg nofun, ihmore.1, ihmore.2]
    exact ⟨rfl, rfl⟩

/-- Checking a file counts and locates exactly. Whatever text the file holds, the text consists of
lines, and however these end, those that are not blank are counted and their faults are found in
order, each with the number of its line. Nothing on the machine changes. -/
theorem validateFile_exact {path : Path} {text : String} {world : World}
    (hread : world.disk.read path = .ok (Bytes.ofString text)) :
    ∃ count findings,
      (validateFile path : WorldM _) world = (.ok (count, findings), world) ∧
      (∃ lines, ConsistsOf text.toList lines) ∧
      ∀ lines, ConsistsOf text.toList lines → ChecksAs lines count findings := by
  have hfile : (Machine.readText path : WorldM _) world = (.ok text, world) := by
    change ((world.disk.read path).bind _, world) = _
    rw [hread]
    simp only [Except.bind, Bytes.toString?_ofString]
  have hcheck : (validateFile path : WorldM _) world = (.ok (validateText text), world) := by
    change (((Machine.readText path : WorldM _) world).1.map validateText,
      ((Machine.readText path : WorldM _) world).2) = _
    rw [hfile]
    rfl
  refine ⟨(validateText text).1, (validateText text).2, hcheck,
    ⟨_, consistsOf_splitOn text.toList⟩, fun lines hlines => ?_⟩
  have htext : validateText text = validateLines 1 lines := validateLines_splitOn hlines 1
  rw [htext]
  refine ⟨by rw [validateLines_eq], by rw [validateLines_eq], fun accepted hamong haccepted => ?_⟩
  rw [hamong.validateLines_eq haccepted]
  exact ⟨rfl, rfl⟩

open scoped PlainSync.Path in
/-- A machine with a log that has a blank line, a line that spells no value, another blank line and
one with an object on it that has no field. -/
def World.ofBlankLines : World where
  disk := Disk.put {} ["run.log"] (.file (Bytes.ofString "\r\nno\n\n \x7b\x7d\r\n"))

open scoped PlainSync.Path in
/-- Blank lines count for the numbers of the others only. -/
theorem validateFile_blankLines :
    (validateFile "run.log" : WorldM _) .ofBlankLines =
      (.ok (2, [⟨2, .notJson⟩, ⟨4, .missing "timestamp"⟩, ⟨4, .missing "trace_id"⟩,
        ⟨4, .missing "level"⟩, ⟨4, .missing "event"⟩]), .ofBlankLines) := by
  have hread : World.ofBlankLines.disk.read "run.log" =
      .ok (Bytes.ofString "\r\nno\n\n \x7b\x7d\r\n") := rfl
  obtain ⟨count, findings, hcheck, -, hchecks⟩ := validateFile_exact hread
  have hlines : ConsistsOf "\r\nno\n\n \x7b\x7d\r\n".toList
      [[], ['n', 'o'], [], [' ', '\x7b', '\x7d']] :=
    .carriageReturn [] (by decide) (.lineFeed ['n', 'o'] (by decide) (.lineFeed [] (by decide)
      (.carriageReturn [' ', '\x7b', '\x7d'] (by decide) .empty)))
  obtain ⟨hcount, hfindings, -⟩ := hchecks _ hlines
  have hfilled : [[], ['n', 'o'], [], [' ', '\x7b', '\x7d']].countP isFilled = 2 := by decide
  have hfaults : findingsFrom 1 [[], ['n', 'o'], [], [' ', '\x7b', '\x7d']] =
      [⟨2, .notJson⟩, ⟨4, .missing "timestamp"⟩, ⟨4, .missing "trace_id"⟩, ⟨4, .missing "level"⟩,
        ⟨4, .missing "event"⟩] := by
    decide +kernel
  rw [hcheck, hcount, hfindings, hfilled, hfaults]

end PlainSync
