import PlainSync.Proofs.Source.Calls

/-!
# Names that open no call

A source has no call if none of its units is the name of a built-in with a parenthesis behind it.
How far behind is a matter of what may be skipped: the scan skips white space only, but an operand
also loses its comments and splices before it is scanned again.
-/

namespace PlainSync.Source

open Bytes

/-- A unit of white space. -/
def isWhiteUnit : Bytes → Bool
  | [b] => Byte.isWhiteSpace b
  | _ => false

/-- A unit that a space may take the place of: white space, a backslash or a comment. -/
def fades : Bytes → Bool
  | [] => false
  | [b] => Byte.isWhiteSpace b || b = Byte.backslash
  | b :: _ :: _ => b = Byte.slash

/-- No name of a built-in stands in front of an opening parenthesis, units that are skipped
aside. -/
def NamesApart (skip : Bytes → Bool) : List Bytes → Prop
  | [] => True
  | unit :: more =>
    ((Builtin.ofSpelling? unit).isSome →
      more.find? (fun other => !skip other) ≠ some [Byte.openParen]) ∧ NamesApart skip more

instance (skip : Bytes → Bool) : DecidablePred (NamesApart skip)
  | [] => isTrue trivial
  | _ :: more =>
    have := instDecidablePredListBytesNamesApart skip more
    inferInstanceAs (Decidable (_ ∧ _))

/-- White units fade. -/
theorem fades_of_isWhiteUnit {unit : Bytes} (hunit : isWhiteUnit unit) : fades unit := by
  match unit with
  | [b] =>
    rw [isWhiteUnit] at hunit
    rw [fades, hunit]
    rfl

section Lists

variable {skip : Bytes → Bool} {front back : List Bytes}

/-- Names stand apart in front and behind. -/
theorem NamesApart.of_append (happart : NamesApart skip (front ++ back)) :
    NamesApart skip front ∧ NamesApart skip back := by
  induction front with
  | nil => exact ⟨trivial, happart⟩
  | cons unit front ih =>
    rw [List.cons_append] at happart
    obtain ⟨hname, hmore⟩ := happart
    refine ⟨⟨fun hbuiltin hopen => hname hbuiltin ?_, (ih hmore).1⟩, (ih hmore).2⟩
    rw [List.find?_append, hopen]
    rfl

/-- A unit that is neither skipped nor an opening parenthesis keeps what stands on both sides
apart. -/
theorem NamesApart.append {stop : Bytes} (hstop : skip stop = false)
    (hopen : stop ≠ [Byte.openParen]) (hfront : NamesApart skip front)
    (hback : NamesApart skip (stop :: back)) : NamesApart skip (front ++ stop :: back) := by
  induction front with
  | nil => exact hback
  | cons unit front ih =>
    rw [List.cons_append]
    refine ⟨fun hbuiltin => ?_, ih hfront.2⟩
    have hsame := hfront.1 hbuiltin
    rw [List.find?_append]
    cases hfound : front.find? (fun other => !skip other) with
    | none => simpa [hstop] using hopen
    | some other =>
      rw [hfound] at hsame
      exact hsame

/-- Units that are no names keep nothing together. -/
theorem namesApart_append_of_nameless (hfront : ∀ unit ∈ front, Builtin.ofSpelling? unit = none) :
    NamesApart skip (front ++ back) ↔ NamesApart skip back := by
  induction front with
  | nil => rfl
  | cons unit front ih =>
    obtain ⟨hunit, hmore⟩ := List.forall_mem_cons.mp hfront
    rw [List.cons_append, NamesApart, ih hmore, hunit]
    simp

/-- The less is skipped, the more is apart. -/
theorem NamesApart.mono {skip' : Bytes → Bool} {units : List Bytes}
    (hskip : ∀ unit, skip' unit → skip unit) (hopen : skip [Byte.openParen] = false)
    (happart : NamesApart skip units) : NamesApart skip' units := by
  induction units with
  | nil => trivial
  | cons unit more ih =>
    refine ⟨fun hbuiltin hfound => happart.1 hbuiltin ?_, ih happart.2⟩
    obtain ⟨-, skipped, rest, rfl, hskipped⟩ := List.find?_eq_some_iff_append.mp hfound
    rw [List.find?_append, List.find?_eq_none.mpr, List.find?_cons_of_pos (by simp [hopen])]
    · rfl
    · intro other hother
      simpa using hskip other (by simpa using hskipped other hother)

end Lists

/-- A unit that names no built-in keeps names apart. -/
theorem namesApart_cons_of_nameless {skip : Bytes → Bool} {unit : Bytes} {more : List Bytes}
    (hunit : Builtin.ofSpelling? unit = none) :
    NamesApart skip (unit :: more) ↔ NamesApart skip more :=
  @namesApart_append_of_nameless skip [unit] more (by simpa using hunit)

/-- A unit that begins with a byte of no name is none. -/
theorem ofSpelling?_of_not_startsIdentifier {b : UInt8} {rest : Bytes}
    (hb : ¬ Byte.startsIdentifier b) : Builtin.ofSpelling? (b :: rest) = none := by
  refine Option.eq_none_iff_forall_ne_some.mpr fun builtin hname => ?_
  obtain ⟨c, more, hspelling, hstarts, -⟩ := spelling_shape builtin
  rw [ofSpelling?_eq_some, hspelling, List.cons.injEq] at hname
  exact hb (hname.1 ▸ hstarts)

/-! ## Outlines without calls -/

/-- A lexeme opens no call if its unit is no name or has no parenthesis behind white space. -/
theorem opening?_of_namesApart {before behind : Bytes} {lexeme : Lexeme}
    (happart : NamesApart isWhiteUnit
      (lexeme.text :: (lexemes before behind).map Lexeme.text)) :
    opening? lexeme behind = none := by
  refine Option.eq_none_iff_forall_ne_some.mpr ?_
  rintro ⟨builtin, gap, inner⟩ hopening
  obtain ⟨rfl, rfl, hgap⟩ := opening?_eq_some.mp hopening
  refine happart.1 (by simp [Lexeme.text, ofSpelling?_spelling]) ?_
  have hparen : nextLexeme (gap.reverse ++ before) Byte.openParen inner =
      (.mark Byte.openParen, inner) := rfl
  rw [lexemes_white_append _ _ hgap, lexemes_cons hparen, List.map_append, List.find?_append,
    List.find?_eq_none.mpr]
  · rfl
  · intro unit hunit
    obtain ⟨b, hb, rfl⟩ : ∃ b ∈ gap, [b] = unit := by simpa [Lexeme.text] using hunit
    simp [isWhiteUnit, hgap b hb]

/-- A source whose names are apart has no calls: all of it is copied. -/
theorem outline_of_namesApart (line : Nat) (before text : Bytes)
    (happart : NamesApart isWhiteUnit ((lexemes before text).map Lexeme.text)) :
    outline line before text = (lexemes before text).map fun lexeme => .verbatim lexeme.text := by
  induction before, text using lexemes_induction generalizing line with
  | nil before => rw [lexemes_nil, outline]; rfl
  | cons hnext ih =>
    rw [lexemes_cons hnext] at happart ⊢
    rw [outline_copied hnext (opening?_of_namesApart happart), ih _ happart.2, List.map_cons]

end PlainSync.Source
