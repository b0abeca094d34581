import PlainSync.Json.Token

/-!
# How numbers are spelled

The grammar of JSON numbers, and the reader of numbers on every text of the grammar: it reads
the whole number and stops behind it. A decimal without point and exponent is read as the
integer it writes, as long as that fits 64 bits.
-/

namespace PlainSync.Json

/-! ## Digits -/

/-- Decimal digits, of which there is at least one. -/
def AreDigits (digits : List Nat) : Prop := digits ≠ [] ∧ ∀ digit ∈ digits, digit < 10

/-- The characters of digits. -/
def digitChars (digits : List Nat) : List Char := digits.map Nat.digitChar

/-- A text does not begin with a digit. -/
def NoDigit (text : List Char) : Prop := ∀ c ∈ text.head?, c.isDigit = false

/-- A text that begins with another character begins with no digit. -/
theorem noDigit_cons {c : Char} {text : List Char} (hc : c.isDigit = false) :
    NoDigit (c :: text) := by
  intro first hfirst
  simp only [List.head?_cons, Option.mem_def, Option.some.injEq] at hfirst
  exact hfirst ▸ hc

/-- No digits are taken from a text that begins with none. -/
theorem dropWhile_of_noDigit {text : List Char} (hstop : NoDigit text) :
    text.takeWhile Char.isDigit = [] ∧ text.dropWhile Char.isDigit = text := by
  cases text with
  | nil => exact ⟨rfl, rfl⟩
  | cons c rest =>
    have hc : c.isDigit = false := hstop c rfl
    constructor
    · rw [List.takeWhile_cons_of_neg (by simp only [hc, Bool.false_eq_true, not_false_eq_true])]
    · rw [List.dropWhile_cons_of_neg (by simp only [hc, Bool.false_eq_true, not_false_eq_true])]

/-- Digits are written as digits. -/
theorem isDigit_of_mem_digitChars {digits : List Nat} (hdigits : ∀ digit ∈ digits, digit < 10)
    {c : Char} (hc : c ∈ digitChars digits) : c.isDigit = true := by
  obtain ⟨digit, hmem, rfl⟩ := List.mem_map.mp hc
  rw [Nat.isDigit_digitChar, decide_eq_true (hdigits digit hmem)]

/-- Digits are read back up to where they end. -/
theorem readDigits_append {digits : List Nat} (hdigits : ∀ digit ∈ digits, digit < 10)
    {rest : List Char} (hstop : NoDigit rest) :
    readDigits (digitChars digits ++ rest) = (digits, rest) := by
  have hall : ∀ c ∈ digitChars digits, c.isDigit = true :=
    fun c hc => isDigit_of_mem_digitChars hdigits hc
  obtain ⟨htake, hdrop⟩ := dropWhile_of_noDigit hstop
  have hvalues : (digitChars digits).map (fun c => c.toNat - '0'.toNat) = digits := by
    unfold digitChars
    rw [List.map_map]
    calc
      _ = digits.map id := List.map_congr_left fun digit hmem =>
        Nat.toNat_digitChar_sub_48_of_lt_ten (hdigits digit hmem)
      _ = digits := List.map_id digits
  unfold readDigits
  rw [List.takeWhile_append_of_pos hall, List.dropWhile_append_of_pos hall, htake, hdrop,
    List.append_nil, hvalues]

/-- Digits are read up to the first other character. -/
theorem readSomeDigits?_append {digits : List Nat} (hdigits : AreDigits digits)
    {rest : List Char} (hstop : NoDigit rest) :
    readSomeDigits? (digitChars digits ++ rest) = some (digits, rest) := by
  unfold readSomeDigits?
  rw [readDigits_append hdigits.2 hstop, if_neg]
  rw [List.isEmpty_iff]
  exact hdigits.1

/-! ## Numerals -/

/-- A point with digits behind it, or nothing. -/
inductive SpellsFraction : Option (List Nat) → List Char → Prop where
  | none : SpellsFraction none []
  | some {digits : List Nat} (hdigits : AreDigits digits) :
    SpellsFraction (some digits) ('.' :: digitChars digits)

/-- The letter of a power of ten, a sign that need not be there and digits, or nothing. -/
inductive SpellsExponent : Option Int → List Char → Prop where
  | none : SpellsExponent none []
  | bare {letter : Char} {digits : List Nat} (hletter : letter = 'e' ∨ letter = 'E')
    (hdigits : AreDigits digits) :
    SpellsExponent (some (digitsValue digits)) (letter :: digitChars digits)
  | plus {letter : Char} {digits : List Nat} (hletter : letter = 'e' ∨ letter = 'E')
    (hdigits : AreDigits digits) :
    SpellsExponent (some (digitsValue digits)) (letter :: '+' :: digitChars digits)
  | minus {letter : Char} {digits : List Nat} (hletter : letter = 'e' ∨ letter = 'E')
    (hdigits : AreDigits digits) :
    SpellsExponent (some (-(digitsValue digits : Int))) (letter :: '-' :: digitChars digits)

/-- A number as it is written. A zero in front of the point stands alone. -/
structure SpellsNumeral (numeral : Numeral) (text : List Char) : Prop where
  whole : AreDigits numeral.whole
  zero : numeral.whole.head? = some 0 → numeral.whole.length = 1
  parts : ∃ fraction exponent, SpellsFraction numeral.fraction fraction ∧
    SpellsExponent numeral.exponent exponent ∧
    text = (if numeral.negative then ['-'] else []) ++ digitChars numeral.whole ++ fraction ++
      exponent

/-- A text does not carry a number in front of it on. -/
def EndsNumber (text : List Char) : Prop :=
  ∀ c ∈ text.head?, c.isDigit = false ∧ c ≠ '.' ∧ c ≠ 'e' ∧ c ≠ 'E'

/-- What ends a number begins with no digit. -/
theorem EndsNumber.noDigit {text : List Char} (hend : EndsNumber text) : NoDigit text :=
  fun c hc => (hend c hc).1

/-- A sign is read in front of digits. -/
theorem readMinus_digitChars {digits : List Nat} (hdigits : AreDigits digits)
    (negative : Bool) (rest : List Char) :
    readMinus ((if negative then ['-'] else []) ++ digitChars digits ++ rest) =
      (negative, digitChars digits ++ rest) := by
  cases negative with
  | true => rfl
  | false =>
    obtain ⟨first, more, rfl⟩ := List.exists_cons_of_ne_nil hdigits.1
    have hfirst : first.digitChar ≠ '-' := by
      intro hminus
      have hisDigit : first.digitChar.isDigit = true := by
        rw [Nat.isDigit_digitChar, decide_eq_true (hdigits.2 first List.mem_cons_self)]
      rw [hminus] at hisDigit
      exact absurd hisDigit (by decide)
    simp only [Bool.false_eq_true, if_false, List.nil_append, digitChars, List.map_cons,
      List.cons_append]
    unfold readMinus
    split
    · next hcons =>
      simp only [List.cons.injEq] at hcons
      exact absurd hcons.1 hfirst
    · rfl

/-- A fraction is read as it is spelled. -/
theorem readFraction?_append {fraction : Option (List Nat)} {text rest : List Char}
    (hspells : SpellsFraction fraction text) (hstop : NoDigit rest)
    (hpoint : ∀ c ∈ rest.head?, c ≠ '.') :
    readFraction? (text ++ rest) = some (fraction, rest) := by
  cases hspells with
  | none =>
    rw [List.nil_append]
    unfold readFraction?
    split
    · exact absurd rfl (hpoint '.' rfl)
    · rfl
  | some hdigits =>
    simp only [List.cons_append, readFraction?, readSomeDigits?_append hdigits hstop,
      Option.map_some]

/-- The digits of an exponent are read. -/
theorem readPower?_digitChars {digits : List Nat} (hdigits : AreDigits digits)
    {rest : List Char} (hstop : NoDigit rest) :
    readPower? (digitChars digits ++ rest) = some ((digitsValue digits : Int), rest) := by
  have hread := readSomeDigits?_append hdigits hstop
  obtain ⟨first, more, rfl⟩ := List.exists_cons_of_ne_nil hdigits.1
  have hisDigit : first.digitChar.isDigit = true := by
    rw [Nat.isDigit_digitChar, decide_eq_true (hdigits.2 first List.mem_cons_self)]
  simp only [digitChars, List.map_cons, List.cons_append] at hread ⊢
  unfold readPower?
  split
  · next hcons =>
    simp only [List.cons.injEq] at hcons
    rw [hcons.1] at hisDigit
    exact absurd hisDigit (by decide)
  · next hcons =>
    simp only [List.cons.injEq] at hcons
    rw [hcons.1] at hisDigit
    exact absurd hisDigit (by decide)
  · rw [hread, Option.map_some]

/-- An exponent is read as it is spelled. -/
theorem readExponent?_append {exponent : Option Int} {text rest : List Char}
    (hspells : SpellsExponent exponent text) (hend : EndsNumber rest) :
    readExponent? (text ++ rest) = some (exponent, rest) := by
  have hstop := hend.noDigit
  cases hspells with
  | none =>
    rw [List.nil_append]
    unfold readExponent?
    split
    · exact absurd rfl (hend 'e' rfl).2.2.1
    · exact absurd rfl (hend 'E' rfl).2.2.2
    · rfl
  | bare hletter hdigits =>
    have hpower := readPower?_digitChars hdigits hstop
    rcases hletter with rfl | rfl
    · simp only [List.cons_append, readExponent?, hpower, Option.map_some]
    · simp only [List.cons_append, readExponent?, hpower, Option.map_some]
  | plus hletter hdigits =>
    have hread := readSomeDigits?_append hdigits hstop
    rcases hletter with rfl | rfl
    · simp only [List.cons_append, readExponent?, readPower?, hread, Option.map_some]
    · simp only [List.cons_append, readExponent?, readPower?, hread, Option.map_some]
  | minus hletter hdigits =>
    have hread := readSomeDigits?_append hdigits hstop
    rcases hletter with rfl | rfl
    · simp only [List.cons_append, readExponent?, readPower?, hread, Option.map_some]
    · simp only [List.cons_append, readExponent?, readPower?, hread, Option.map_some]

/-- The letter of a power of ten is neither a digit nor a point. -/
theorem SpellsExponent.ends {exponent : Option Int} {text rest : List Char}
    (hspells : SpellsExponent exponent text) (hend : EndsNumber rest) :
    NoDigit (text ++ rest) ∧ ∀ c ∈ (text ++ rest).head?, c ≠ '.' := by
  have hcase (letter : Char) (hletter : letter = 'e' ∨ letter = 'E') (more : List Char) :
      NoDigit (letter :: more) ∧ ∀ c ∈ (letter :: more).head?, c ≠ '.' := by
    rcases hletter with rfl | rfl
    · exact ⟨noDigit_cons (by decide), fun c hc => by cases hc; decide⟩
    · exact ⟨noDigit_cons (by decide), fun c hc => by cases hc; decide⟩
  cases hspells with
  | none => exact ⟨hend.noDigit, fun c hc => (hend c hc).2.1⟩
  | bare hletter hdigits => exact hcase _ hletter _
  | plus hletter hdigits => exact hcase _ hletter _
  | minus hletter hdigits => exact hcase _ hletter _

/-- No digit stands where a fraction may begin. -/
theorem SpellsFraction.noDigit {fraction : Option (List Nat)} {text rest : List Char}
    (hspells : SpellsFraction fraction text) (hstop : NoDigit rest) : NoDigit (text ++ rest) := by
  cases hspells with
  | none => exact hstop
  | some hdigits => exact noDigit_cons (by decide)

/-- Every number of the grammar is read as it is written, up to where it ends. -/
theorem readNumeral?_append {numeral : Numeral} {text rest : List Char}
    (hspells : SpellsNumeral numeral text) (hend : EndsNumber rest) :
    readNumeral? (text ++ rest) = some (numeral, rest) := by
  obtain ⟨fraction, exponent, hfraction, hexponent, rfl⟩ := hspells.parts
  obtain ⟨hexponentStop, hexponentPoint⟩ := hexponent.ends hend
  have hfractionStop := hfraction.noDigit hexponentStop
  have hminus := readMinus_digitChars hspells.whole numeral.negative
    (fraction ++ (exponent ++ rest))
  have hwhole : readWhole? (digitChars numeral.whole ++ (fraction ++ (exponent ++ rest))) =
      some (numeral.whole, fraction ++ (exponent ++ rest)) := by
    unfold readWhole?
    rw [readSomeDigits?_append hspells.whole hfractionStop, Option.filter_some, if_pos]
    by_cases hzero : numeral.whole.head? = some 0
    · simp only [hspells.zero hzero, decide_true, Bool.or_true]
    · simp only [ne_eq, hzero, not_false_eq_true, decide_true, Bool.true_or]
  simp only [List.append_assoc] at hminus ⊢
  unfold readNumeral?
  rw [hminus]
  simp only [hwhole, readFraction?_append hfraction hexponentStop hexponentPoint,
    readExponent?_append hexponent hend, Option.bind_eq_bind, Option.bind_some, Option.pure_def]

/-! ## Integers -/

/-- The decimal digits of a number. -/
def decimalDigits (n : Nat) : List Nat := (Nat.toDigits 10 n).map fun c => c.toNat - '0'.toNat

/-- A digit is written as the character that it was read from. -/
theorem digitChar_of_isDigit {c : Char} (hc : c.isDigit = true) :
    Nat.digitChar (c.toNat - '0'.toNat) = c := by
  have hrange : 48 ≤ c.toNat ∧ c.toNat ≤ 57 := Char.isDigit_iff_toNat.mp hc
  apply Char.toNat_inj.mp
  rw [Nat.toNat_digitChar_of_lt_ten (by change c.toNat - 48 < 10; omega)]
  change 48 + (c.toNat - 48) = c.toNat
  omega

/-- Decimal digits are written as the number is. -/
theorem digitChars_decimalDigits (n : Nat) : digitChars (decimalDigits n) = Nat.toDigits 10 n := by
  unfold digitChars decimalDigits
  rw [List.map_map]
  calc
    _ = (Nat.toDigits 10 n).map id := List.map_congr_left fun c hc =>
      digitChar_of_isDigit (Nat.isDigit_of_mem_toDigits (by decide) (by decide) hc)
    _ = Nat.toDigits 10 n := List.map_id _

/-- A number has decimal digits, the first of which is zero for zero only. -/
theorem areDigits_decimalDigits (n : Nat) : AreDigits (decimalDigits n) := by
  constructor
  · unfold decimalDigits
    rw [ne_eq, List.map_eq_nil_iff]
    exact Nat.toDigits_ne_nil
  · intro digit hdigit
    obtain ⟨c, hc, rfl⟩ := List.mem_map.mp hdigit
    have hisDigit : c.isDigit = true :=
      Nat.isDigit_of_mem_toDigits (by decide) (by decide) hc
    have hrange : 48 ≤ c.toNat ∧ c.toNat ≤ 57 := Char.isDigit_iff_toNat.mp hisDigit
    change c.toNat - 48 < 10
    omega

/-- A number is the value of its decimal digits. -/
theorem digitsValue_decimalDigits (n : Nat) : digitsValue (decimalDigits n) = n := by
  unfold digitsValue decimalDigits
  rw [List.foldl_map]
  exact Nat.ofDigitChars_ten_toDigits

/-- A small number is its own digit. -/
theorem decimalDigits_of_lt_ten {n : Nat} (hn : n < 10) : decimalDigits n = [n] := by
  unfold decimalDigits
  rw [Nat.toDigits_of_lt_base hn, List.map_singleton]
  exact congrArg (fun digit => [digit]) (Nat.toNat_digitChar_sub_48_of_lt_ten hn)

/-- The last digit of a larger number is its remainder by ten. -/
theorem decimalDigits_of_le {n : Nat} (hn : 10 ≤ n) :
    decimalDigits n = decimalDigits (n / 10) ++ [n % 10] := by
  unfold decimalDigits
  rw [Nat.toDigits_of_base_le (by decide) hn, List.map_append, List.map_singleton]
  exact congrArg (fun digit => _ ++ [digit])
    (Nat.toNat_digitChar_sub_48_of_lt_ten (Nat.mod_lt n (by decide)))

/-- No zero stands in front of a number other than zero itself. -/
theorem head?_decimalDigits_of_pos {n : Nat} (hn : 0 < n) : (decimalDigits n).head? ≠ some 0 := by
  induction n using Nat.strongRecOn with
  | ind n ih =>
    by_cases hsmall : n < 10
    · rw [decimalDigits_of_lt_ten hsmall, List.head?_cons, ne_eq, Option.some.injEq]
      omega
    · have hshorter := ih (n / 10) (by omega) (by omega)
      obtain ⟨first, more, hfront⟩ :=
        List.exists_cons_of_ne_nil (areDigits_decimalDigits (n / 10)).1
      rw [decimalDigits_of_le (by omega), hfront]
      rw [hfront] at hshorter
      exact hshorter

/-- Only zero begins with the digit zero. -/
theorem length_decimalDigits_of_head? {n : Nat} (hzero : (decimalDigits n).head? = some 0) :
    (decimalDigits n).length = 1 := by
  have hn : n = 0 := by
    apply Nat.eq_zero_of_not_pos
    intro hpos
    exact head?_decimalDigits_of_pos hpos hzero
  subst hn
  rw [decimalDigits_of_lt_ten (by decide)]
  rfl

/-- The integers that are read as integers: those of 64 bits, with a sign or without. -/
def IntegerRange (n : Int) : Prop := -(Nat.pow 2 63 : Nat) ≤ n ∧ n < (Nat.pow 2 64 : Nat)

/-- Numbers of one word can be read as integers. -/
theorem integerRange_natCast {n : Nat} (hn : n < Nat.pow 2 64) : IntegerRange n := by
  constructor
  · omega
  · exact_mod_cast hn

/-- An integer as it is written. -/
def integerNumeral (n : Int) : Numeral := ⟨decide (n < 0), decimalDigits n.natAbs, none, none⟩

/-- An integer is written as a sign and the digits of its absolute value. -/
theorem toList_toString_int (n : Int) :
    (toString n).toList = (if n < 0 then ['-'] else []) ++ Nat.toDigits 10 n.natAbs := by
  rw [Int.toString_eq_repr, Int.repr_eq_if]
  by_cases hnegative : n < 0
  · have hnatAbs : (-n).toNat = n.natAbs := by omega
    rw [if_neg (by omega), if_pos hnegative, String.toList_append, Nat.toList_repr, hnatAbs]
    rfl
  · have hnatAbs : n.toNat = n.natAbs := by omega
    rw [if_pos (by omega), if_neg hnegative, Nat.toList_repr, hnatAbs, List.nil_append]

/-- An integer is spelled by the text that it is written as. -/
theorem spellsNumeral_integer (n : Int) : SpellsNumeral (integerNumeral n) (toString n).toList := by
  constructor
  · exact areDigits_decimalDigits n.natAbs
  · exact fun hzero => length_decimalDigits_of_head? hzero
  · refine ⟨[], [], .none, .none, ?_⟩
    rw [toList_toString_int, integerNumeral, digitChars_decimalDigits, List.append_nil,
      List.append_nil]
    simp only [decide_eq_true_eq]

/-- A number does not get smaller by more digits. -/
theorem le_foldl_digits (digits : List Nat) (n : Nat) :
    n ≤ digits.foldl (fun n digit => 10 * n + digit) n := by
  induction digits generalizing n with
  | nil => exact Nat.le_refl n
  | cons digit more ih =>
    rw [List.foldl_cons]
    have hmore := ih (10 * n + digit)
    omega

/-- Digits that write a number of 64 bits are all gathered. -/
theorem gather_of_le {digits : List Nat} {n : Nat}
    (hfits : digits.foldl (fun n digit => 10 * n + digit) n ≤ greatestGathered) :
    gather n digits = (digits.foldl (fun n digit => 10 * n + digit) n, digits.length, 0) := by
  induction digits generalizing n with
  | nil => rfl
  | cons digit more ih =>
    rw [List.foldl_cons] at hfits
    have hstep := le_foldl_digits more (10 * n + digit)
    have hnext : n * 10 + digit = 10 * n + digit := by omega
    rw [gather, hnext, if_neg (by omega), ih hfits]
    rfl

/-- An integer of 64 bits is read as itself. -/
theorem token?_integerNumeral {n : Int} (hrange : IntegerRange n) :
    (integerNumeral n).token? = some (.integer n) := by
  obtain ⟨hleast, hgreatest⟩ := hrange
  have hvalue := digitsValue_decimalDigits n.natAbs
  unfold digitsValue at hvalue
  have hgathered : gather 0 (decimalDigits n.natAbs) =
      (n.natAbs, (decimalDigits n.natAbs).length, 0) := by
    have hfits : (decimalDigits n.natAbs).foldl (fun n digit => 10 * n + digit) 0 ≤
        greatestGathered := by
      have hsigned : Nat.pow 2 63 < Nat.pow 2 64 := by decide
      rw [hvalue]
      apply Nat.le_sub_one_of_lt
      omega
    rw [gather_of_le hfits, hvalue]
  unfold Numeral.token? integerNumeral
  rw [hgathered]
  by_cases hnegative : n < 0
  · have hnatAbs : (n.natAbs : Int) = -n := by omega
    simp only [hnegative, decide_true, Bool.not_true, Bool.false_eq_true, and_false, if_false]
    rw [if_pos]
    · rw [hnatAbs, Int.neg_neg]
    · refine ⟨trivial, ?_⟩
      omega
  · have hnatAbs : (n.natAbs : Int) = n := by omega
    simp only [hnegative, decide_false, Bool.not_false, and_self, if_true, hnatAbs]

end PlainSync.Json
