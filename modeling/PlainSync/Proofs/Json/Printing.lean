import PlainSync.Json.Printer
import PlainSync.Proofs.Json.Parsing

/-!
# Written values are texts of the grammar

A value without floating-point numbers whose integers fit 64 bits is written, on one line or
indented, as a text that spells it. On one line it has no control characters, whatever its
strings hold.
-/

namespace PlainSync.Json

mutual

/-- The value has no floating-point number, and its integers fit 64 bits. -/
def IsExact : Json → Prop
  | integer value => IntegerRange value
  | real _ => False
  | array items => ItemsExact items
  | object members => MembersExact members
  | _ => True

/-- The items of an array are exact. -/
def ItemsExact : List Json → Prop
  | [] => True
  | item :: more => item.IsExact ∧ ItemsExact more

/-- The values of an object's members are exact. -/
def MembersExact : List (String × Json) → Prop
  | [] => True
  | (_, value) :: more => value.IsExact ∧ MembersExact more

end

/-! ## Strings -/

/-- The digit that is printed spells its value. -/
theorem digitChar_mem_hexSpellings (n : Nat) : hexDigit n ∈ hexSpellings n :=
  List.mem_cons_self

/-- A control character is spelled by two zeros and two digits. -/
theorem spellsUnit_of_small {n : Nat} (hn : n < 0x20) :
    SpellsUnit n '0' '0' (hexDigit (n / 16)) (hexDigit (n % 16)) := by
  have hfirst : n / 4096 = 0 := by omega
  have hsecond : n / 256 % 16 = 0 := by omega
  have hthird : n / 16 % 16 = n / 16 := by omega
  constructor
  · omega
  · rw [hfirst]
    exact digitChar_mem_hexSpellings 0
  · rw [hsecond]
    exact digitChar_mem_hexSpellings 0
  · rw [hthird]
    exact digitChar_mem_hexSpellings (n / 16)
  · exact digitChar_mem_hexSpellings (n % 16)

/-- A character is spelled by what is printed for it. -/
theorem spellsChar_escapeChar (c : Char) : SpellsChar c (escapeChar c) := by
  unfold escapeChar
  split
  · exact .letter (by decide)
  · exact .letter (by decide)
  · exact .letter (by decide)
  · exact .letter (by decide)
  · exact .letter (by decide)
  · exact .letter (by decide)
  · exact .letter (by decide)
  · next hquote hbackslash _ _ _ _ _ =>
    by_cases hcontrol : c.toNat < 0x20
    · rw [if_pos hcontrol]
      exact .unit (spellsUnit_of_small hcontrol)
    · rw [if_neg hcontrol]
      exact .plain hquote hbackslash (Nat.le_of_not_lt hcontrol)

/-- Characters are spelled by what is printed for them. -/
theorem spellsChars_flatMap_escapeChar (chars : List Char) :
    SpellsChars chars (chars.flatMap escapeChar) := by
  induction chars with
  | nil => exact .nil
  | cons c more ih =>
    rw [List.flatMap_cons]
    exact .cons (spellsChar_escapeChar c) ih

/-- A string is spelled by its text. -/
theorem spellsToken_stringText (s : String) : SpellsToken (.string s) (stringText s) :=
  .string (spellsChars_flatMap_escapeChar s.toList)

/-! ## What stands behind a value -/

/-- A text that begins with no character of a number ends one. -/
theorem endsNumber_cons {c : Char} (text : List Char)
    (hc : c.isDigit = false ∧ c ≠ '.' ∧ c ≠ 'e' ∧ c ≠ 'E') : EndsNumber (c :: text) := by
  intro other hother
  rw [List.head?_cons, Option.mem_def, Option.some.injEq] at hother
  rw [← hother]
  exact hc

/-- A number ends with the text. -/
theorem endsNumber_nil : EndsNumber [] := by
  intro c hc
  cases hc

/-- A number ends with its line. -/
theorem endsNumber_lineStart (depth : Nat) (text : List Char) :
    EndsNumber (lineStart depth ++ text) :=
  endsNumber_cons _ (by decide)

/-- Tokens are spelled behind a line start. -/
theorem Spells.lineStart {tokens : List Token} {text : List Char} (depth : Nat)
    (htext : Spells tokens text) : Spells tokens (lineStart depth ++ text) := by
  have hspaces (n : Nat) : Spells tokens (List.replicate n ' ' ++ text) := by
    induction n with
    | zero => exact htext
    | succ n ih => exact .blank (by decide) ih
  exact .blank (by decide) (hspaces (2 * depth))

/-! ## Values on one line -/

mutual

/-- An exact value on one line spells its tokens. -/
theorem spells_chars (value : Json) {tokens : List Token} {text : List Char}
    (hexact : value.IsExact) (hends : EndsNumber text) (htext : Spells tokens text) :
    Spells (value.toTokens ++ tokens) (value.chars ++ text) := by
  match value with
  | .null => exact .token .nullWord trivial htext
  | .bool true => exact .token .trueWord trivial htext
  | .bool false => exact .token .falseWord trivial htext
  | .integer n => exact .token (.integer hexact) hends htext
  | .real x => exact hexact.elim
  | .string s => exact .token (spellsToken_stringText s) trivial htext
  | .array items =>
    rw [toTokens, chars, List.append_assoc, List.append_assoc]
    apply Spells.token .openBracket trivial
    apply spells_itemChars items hexact (endsNumber_cons _ (by decide))
    exact .token .closeBracket trivial htext
  | .object members =>
    rw [toTokens, chars, List.append_assoc, List.append_assoc]
    apply Spells.token .openBrace trivial
    apply spells_memberChars members hexact (endsNumber_cons _ (by decide))
    exact .token .closeBrace trivial htext

/-- The items of an array on one line spell their tokens. -/
theorem spells_itemChars (items : List Json) {tokens : List Token} {text : List Char}
    (hexact : ItemsExact items) (hends : EndsNumber text) (htext : Spells tokens text) :
    Spells (itemTokens items ++ tokens) (itemChars items ++ text) := by
  match items with
  | [] => exact htext
  | [item] => exact spells_chars item hexact.1 hends htext
  | item :: next :: more =>
    have hmore := spells_itemChars (next :: more) hexact.2 hends htext
    rw [itemTokens, itemChars, List.append_assoc, List.append_assoc]
    · apply spells_chars item hexact.1 (endsNumber_cons _ (by decide))
      exact .token .comma trivial hmore
    · exact List.cons_ne_nil next more

/-- The members of an object on one line spell their tokens. -/
theorem spells_memberChars (members : List (String × Json)) {tokens : List Token}
    {text : List Char} (hexact : MembersExact members) (hends : EndsNumber text)
    (htext : Spells tokens text) :
    Spells (memberTokens members ++ tokens) (memberChars members ++ text) := by
  match members with
  | [] => exact htext
  | [(label, member)] =>
    rw [memberTokens, memberChars, List.append_assoc]
    apply Spells.token (spellsToken_stringText label) trivial
    apply Spells.token .colon trivial
    exact spells_chars member hexact.1 hends htext
  | (label, member) :: next :: more =>
    have hmore := spells_memberChars (next :: more) hexact.2 hends htext
    rw [memberTokens, memberChars, List.append_assoc, List.append_assoc, List.append_assoc]
    · apply Spells.token (spellsToken_stringText label) trivial
      apply Spells.token .colon trivial
      apply spells_chars member hexact.1 (endsNumber_cons _ (by decide))
      exact .token .comma trivial hmore
    · exact List.cons_ne_nil next more

end

/-! ## Indented values -/

mutual

/-- An exact value spells its tokens when it is indented. -/
theorem spells_prettyChars (value : Json) (depth : Nat) {tokens : List Token}
    {text : List Char} (hexact : value.IsExact) (hends : EndsNumber text)
    (htext : Spells tokens text) :
    Spells (value.toTokens ++ tokens) (value.prettyChars depth ++ text) := by
  match value with
  | .null => exact .token .nullWord trivial htext
  | .bool true => exact .token .trueWord trivial htext
  | .bool false => exact .token .falseWord trivial htext
  | .integer n => exact .token (.integer hexact) hends htext
  | .real x => exact hexact.elim
  | .string s => exact .token (spellsToken_stringText s) trivial htext
  | .array [] =>
    rw [toTokens, prettyChars, itemTokens]
    change Spells (.openBracket :: .closeBracket :: tokens) (['['] ++ ([']'] ++ text))
    exact .token .openBracket trivial (.token .closeBracket trivial htext)
  | .array (item :: more) =>
    rw [toTokens, prettyChars, List.append_assoc, List.append_assoc, List.append_assoc]
    apply Spells.token .openBracket trivial
    apply spells_prettyItems (item :: more) (depth + 1) hexact (endsNumber_lineStart depth _)
    apply Spells.lineStart depth
    exact .token .closeBracket trivial htext
  | .object [] =>
    rw [toTokens, prettyChars, memberTokens]
    change Spells (.openBrace :: .closeBrace :: tokens) (['\x7b'] ++ (['\x7d'] ++ text))
    exact .token .openBrace trivial (.token .closeBrace trivial htext)
  | .object (member :: more) =>
    rw [toTokens, prettyChars, List.append_assoc, List.append_assoc, List.append_assoc]
    apply Spells.token .openBrace trivial
    apply spells_prettyMembers (member :: more) (depth + 1) hexact (endsNumber_lineStart depth _)
    apply Spells.lineStart depth
    exact .token .closeBrace trivial htext

/-- The items of an array spell their tokens when each has a line of its own. -/
theorem spells_prettyItems (items : List Json) (depth : Nat) {tokens : List Token}
    {text : List Char} (hexact : ItemsExact items) (hends : EndsNumber text)
    (htext : Spells tokens text) :
    Spells (itemTokens items ++ tokens) (prettyItems depth items ++ text) := by
  match items with
  | [] => exact htext
  | [item] =>
    rw [itemTokens, prettyItems, List.append_assoc]
    exact .lineStart depth (spells_prettyChars item depth hexact.1 hends htext)
  | item :: next :: more =>
    have hmore := spells_prettyItems (next :: more) depth hexact.2 hends htext
    rw [itemTokens, prettyItems, List.append_assoc, List.append_assoc, List.append_assoc]
    · apply Spells.lineStart depth
      apply spells_prettyChars item depth hexact.1 (endsNumber_cons _ (by decide))
      exact .token .comma trivial hmore
    · exact List.cons_ne_nil next more

/-- The members of an object spell their tokens when each has a line of its own. -/
theorem spells_prettyMembers (members : List (String × Json)) (depth : Nat)
    {tokens : List Token} {text : List Char} (hexact : MembersExact members)
    (hends : EndsNumber text) (htext : Spells tokens text) :
    Spells (memberTokens members ++ tokens) (prettyMembers depth members ++ text) := by
  match members with
  | [] => exact htext
  | [(label, member)] =>
    rw [memberTokens, prettyMembers, List.append_assoc, List.append_assoc]
    apply Spells.lineStart depth
    apply Spells.token (spellsToken_stringText label) trivial
    apply Spells.token .colon trivial
    apply Spells.blank (by decide)
    exact spells_prettyChars member depth hexact.1 hends htext
  | (label, member) :: next :: more =>
    have hmore := spells_prettyMembers (next :: more) depth hexact.2 hends htext
    rw [memberTokens, prettyMembers, List.append_assoc, List.append_assoc, List.append_assoc,
      List.append_assoc]
    · apply Spells.lineStart depth
      apply Spells.token (spellsToken_stringText label) trivial
      apply Spells.token .colon trivial
      apply Spells.blank (by decide)
      apply spells_prettyChars member depth hexact.1 (endsNumber_cons _ (by decide))
      exact .token .comma trivial hmore
    · exact List.cons_ne_nil next more

end

/-- An exact value on one line spells its tokens and nothing else. -/
theorem spells_compact {value : Json} (hexact : value.IsExact) :
    Spells value.toTokens value.compact.toList := by
  have hspells := spells_chars value hexact endsNumber_nil Spells.nil
  rw [List.append_nil, List.append_nil] at hspells
  rwa [compact, String.toList_ofList]

/-- An exact value spells its tokens and nothing else when it is indented. -/
theorem spells_pretty {value : Json} (hexact : value.IsExact) :
    Spells value.toTokens value.pretty.toList := by
  have hspells := spells_prettyChars value 0 hexact endsNumber_nil Spells.nil
  rw [List.append_nil, List.append_nil] at hspells
  rwa [pretty, String.toList_ofList]

/-- What is written on one line is read as the normal form of the value, exactly if the value is
not nested too deeply. -/
theorem parse?_compact {value : Json} (hexact : value.IsExact) :
    parse? value.compact = if value.depth ≤ maxDepth then some value.normal else none :=
  ofChars?_of_spells (spells_compact hexact)

/-- What is written on indented lines is read likewise. -/
theorem parse?_pretty {value : Json} (hexact : value.IsExact) :
    parse? value.pretty = if value.depth ≤ maxDepth then some value.normal else none :=
  ofChars?_of_spells (spells_pretty hexact)

/-! ## Control characters -/

/-- The text has no control characters of the basic alphabet, so that it is one line. -/
def NoControls (text : List Char) : Prop := ∀ c ∈ text, 0x20 ≤ c.toNat

/-- The empty text has no control characters. -/
@[simp]
theorem noControls_nil : NoControls [] := List.forall_mem_nil _

/-- A text has no control characters if no character is one. -/
@[simp]
theorem noControls_cons {c : Char} {text : List Char} :
    NoControls (c :: text) ↔ 0x20 ≤ c.toNat ∧ NoControls text := List.forall_mem_cons

/-- Two texts have no control characters if neither has. -/
@[simp]
theorem noControls_append {first second : List Char} :
    NoControls (first ++ second) ↔ NoControls first ∧ NoControls second := List.forall_mem_append

/-- Escapes have no control characters. -/
theorem noControls_escapeChar (c : Char) : NoControls (escapeChar c) := by
  have hhex : ∀ n < 16, 0x20 ≤ (hexDigit n).toNat := by decide
  unfold escapeChar
  split
  iterate 7
    · simp
  · by_cases hcontrol : c.toNat < 0x20
    · rw [if_pos hcontrol]
      simp [hhex (c.toNat / 16) (by omega), hhex (c.toNat % 16) (by omega)]
    · rw [if_neg hcontrol]
      simp only [noControls_cons, noControls_nil, and_true]
      omega

/-- Strings are printed without control characters. -/
theorem noControls_stringText (s : String) : NoControls (stringText s) := by
  have hchars : NoControls (s.toList.flatMap escapeChar) := by
    intro other hother
    obtain ⟨c, -, hc⟩ := List.mem_flatMap.mp hother
    exact noControls_escapeChar c other hc
  unfold stringText
  simp [hchars]

/-- Integers are printed without control characters. -/
theorem noControls_integer (n : Int) : NoControls (toString n).toList := by
  have hdigits : NoControls (Nat.toDigits 10 n.natAbs) := by
    intro c hc
    have hdigit : c.isDigit = true := Nat.isDigit_of_mem_toDigits (by decide) (by decide) hc
    have hzero : '0'.toNat ≤ c.toNat := (Char.isDigit_iff_toNat.mp hdigit).1
    exact Nat.le_trans (by decide) hzero
  rw [toList_toString_int, noControls_append]
  refine ⟨?_, hdigits⟩
  split
  · simp
  · simp

mutual

/-- An exact value is written on one line without control characters. -/
theorem noControls_chars (value : Json) (hexact : value.IsExact) : NoControls value.chars := by
  match value with
  | .null => simp [chars]
  | .bool true => simp [chars]
  | .bool false => simp [chars]
  | .integer n => exact noControls_integer n
  | .real x => exact hexact.elim
  | .string s => exact noControls_stringText s
  | .array items => simp [chars, noControls_itemChars items hexact]
  | .object members => simp [chars, noControls_memberChars members hexact]

/-- Items are printed without control characters. -/
theorem noControls_itemChars (items : List Json) (hexact : ItemsExact items) :
    NoControls (itemChars items) := by
  match items with
  | [] => exact noControls_nil
  | [item] => exact noControls_chars item hexact.1
  | item :: next :: more =>
    have hitem := noControls_chars item hexact.1
    have hmore := noControls_itemChars (next :: more) hexact.2
    simp [itemChars, hitem, hmore]

/-- Members are printed without control characters. -/
theorem noControls_memberChars (members : List (String × Json)) (hexact : MembersExact members) :
    NoControls (memberChars members) := by
  match members with
  | [] => exact noControls_nil
  | [(label, member)] =>
    have hmember := noControls_chars member hexact.1
    simp [memberChars, noControls_stringText, hmember]
  | (label, member) :: next :: more =>
    have hmember := noControls_chars member hexact.1
    have hmore := noControls_memberChars (next :: more) hexact.2
    simp [memberChars, noControls_stringText, hmember, hmore]

end

end PlainSync.Json
