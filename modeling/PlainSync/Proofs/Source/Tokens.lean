import Mathlib.Data.List.Forall2
import PlainSync.Proofs.Source.Regions

/-!
# Tokens of C

A text is read as C reads it before there are directives: splices are deleted, comments are blanks,
and what stands between blanks is cut into tokens. No token goes across a blank, so all that matters
for the tokens of a text are its runs of units without a blank between them.
-/

namespace PlainSync.Source

open Bytes

/-- The units of a text without splices, a hash mark being a byte like any other. -/
def unitsOf (text : Bytes) : List Lexeme :=
  match text with
  | [] => []
  | b :: rest => (nextUnit b rest).1 :: unitsOf (nextUnit b rest).2
termination_by text.length
decreasing_by exact length_nextUnit_lt b rest

/-- The white space of C, which includes the vertical tab. -/
def isSpace (b : UInt8) : Bool := Byte.isWhiteSpace b || b = 11

/-- Comments and white space. -/
def Lexeme.isBlank : Lexeme → Bool
  | trivia text => text.head? = some Byte.slash
  | mark b => isSpace b
  | _ => false

/-- The units between two blanks, if there are any. -/
def flush (run : List Lexeme) : List (List Lexeme) := if run.isEmpty then [] else [run]

/-- The runs of units without a blank between them, `run` being the front of the first one. -/
def runsFrom (run : List Lexeme) : List Lexeme → List (List Lexeme)
  | [] => flush run
  | unit :: more =>
    if unit.isBlank then flush run ++ runsFrom [] more else runsFrom (run ++ [unit]) more

/-- The runs of a text as C reads it. -/
def runsOf (text : Bytes) : List (List Lexeme) := runsFrom [] (unitsOf (unspliced text))

/-- Text outside comments and white space. A character that is white space in Unicode only is no
such text. -/
def HasToken (text : Bytes) : Prop :=
  (textOf ((unitsOf (unspliced text)).filter (!·.isBlank))).trim ≠ []

instance (text : Bytes) : Decidable (HasToken text) := inferInstanceAs (Decidable (_ ≠ _))

/-- White space is read byte by byte. -/
theorem nextUnit_of_isWhiteSpace {b : UInt8} (hb : Byte.isWhiteSpace b) (rest : Bytes) :
    nextUnit b rest = (.mark b, rest) := by
  simp only [Byte.isWhiteSpace, Bool.or_eq_true, decide_eq_true_eq] at hb
  rcases hb with (((rfl | rfl) | rfl) | rfl) | rfl <;> rfl

/-- White space has its bytes for units. -/
theorem unitsOf_white {text : Bytes} (htext : ∀ b ∈ text, Byte.isWhiteSpace b) :
    unitsOf text = text.map .mark := by
  induction text with
  | nil => rw [unitsOf]; rfl
  | cons b rest ih =>
    obtain ⟨hb, hrest⟩ := List.forall_mem_cons.mp htext
    rw [unitsOf, nextUnit_of_isWhiteSpace hb, ih hrest, List.map_cons]

/-- White space has no tokens. -/
theorem not_hasToken_of_white {text : Bytes} (htext : ∀ b ∈ text, Byte.isWhiteSpace b) :
    ¬ HasToken text := by
  have hsplices : unspliced text = text := by
    induction text with
    | nil => rfl
    | cons b rest ih =>
      obtain ⟨hb, hrest⟩ := List.forall_mem_cons.mp htext
      have hne : b ≠ Byte.backslash := by
        rintro rfl
        exact absurd hb (by decide)
      rw [unspliced_cons (not_splicedAt_of_ne hne rest), ih hrest]
  have hnone : (text.map Lexeme.mark).filter (!·.isBlank) = [] := by
    rw [List.filter_eq_nil_iff]
    intro unit hunit
    obtain ⟨b, hb, rfl⟩ := List.mem_map.mp hunit
    simp [Lexeme.isBlank, isSpace, htext b hb]
  rw [HasToken, hsplices, unitsOf_white htext, hnone]
  decide +kernel

/-! ## Runs -/

section Runs

variable {run list list' : List Lexeme}

/-- Blank units only end a run. -/
theorem runsFrom_of_blank (hlist : ∀ unit ∈ list, unit.isBlank) :
    runsFrom run list = flush run := by
  induction list generalizing run with
  | nil => rfl
  | cons unit more ih =>
    obtain ⟨hunit, hmore⟩ := List.forall_mem_cons.mp hlist
    rw [runsFrom, if_pos hunit, ih hmore]
    exact List.append_nil _

/-- Blanks in front are in no run. -/
theorem runsFrom_append_left (hlist : ∀ unit ∈ list, unit.isBlank) :
    runsFrom [] (list ++ list') = runsFrom [] list' := by
  induction list with
  | nil => rfl
  | cons unit more ih =>
    obtain ⟨hunit, hmore⟩ := List.forall_mem_cons.mp hlist
    rw [List.cons_append, runsFrom, if_pos hunit, ih hmore]
    rfl

/-- Blanks at the end are in no run. -/
theorem runsFrom_append_right (hlist : ∀ unit ∈ list', unit.isBlank) :
    runsFrom run (list ++ list') = runsFrom run list := by
  induction list generalizing run with
  | nil => exact runsFrom_of_blank hlist
  | cons unit more ih => rw [List.cons_append, runsFrom, runsFrom, ih, ih]

/-- Blanks can be exchanged. -/
theorem runsFrom_congr
    (hlist : List.Forall₂ (fun unit unit' => unit' = unit ∨ unit.isBlank ∧ unit'.isBlank)
      list list') :
    runsFrom run list' = runsFrom run list := by
  induction hlist generalizing run with
  | nil => rfl
  | cons hunit _ ih =>
    rw [runsFrom, runsFrom]
    rcases hunit with rfl | ⟨hblank, hblank'⟩
    · rw [ih, ih]
    · rw [if_pos hblank, if_pos hblank', ih]

/-- Runs are kept by what leaves blanks and others as they are. -/
theorem runsFrom_map {f : Lexeme → Lexeme} (hf : ∀ unit ∈ list, (f unit).isBlank = unit.isBlank) :
    runsFrom (run.map f) (list.map f) = (runsFrom run list).map (·.map f) := by
  have hflush (run : List Lexeme) : flush (run.map f) = (flush run).map (·.map f) := by
    cases run <;> rfl
  induction list generalizing run with
  | nil => exact hflush run
  | cons unit more ih =>
    obtain ⟨hunit, hmore⟩ := List.forall_mem_cons.mp hf
    rw [List.map_cons, runsFrom, runsFrom, hunit]
    split
    · rw [List.map_append, hflush]
      exact congrArg _ (@ih [] hmore)
    · rw [← ih hmore, List.map_append, List.map_singleton]

end Runs

end PlainSync.Source
