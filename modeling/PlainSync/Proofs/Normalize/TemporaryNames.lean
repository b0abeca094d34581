import PlainSync.Proofs.Normalize.Lines
import PlainSync.Proofs.Source.PastWords

/-!
# Names of temporaries

The name of a temporary is an identifier that ends in the number of its site. No other site and
no other temporary of the site has it.
-/

namespace PlainSync.Source

open Bytes Reading

/-- What a name begins with, in front of the number of the site. -/
def nameStem : Temporary → Bytes
  | .pointer => ofString "__centrinel_ptr_"
  | .saved => ofString "__centrinel_tmp_"

/-- The name of a temporary at a site. -/
def temporaryName (site : Nat) : Temporary → Bytes
  | .pointer => (Temporaries.numbered site).pointer
  | .saved => (Temporaries.numbered site).saved

/-- The name of a temporary is its stem and the number of its site. -/
theorem temporaryName_eq (site : Nat) (name : Temporary) :
    temporaryName site name = nameStem name ++ ofString (toString site) := by
  cases name <;> exact ofString_append _ _

/-- The decimal digits of a number are never missing. -/
theorem numeral_ne_nil (n : Nat) : ofString (toString n) ≠ [] := by
  have hdigit (d : Nat) : ofString (Nat.digitChar d).toString ≠ [] := by
    simp [ofString, String.utf8EncodeChar_ne_nil]
  rw [Nat.toString_eq_repr]
  by_cases hn : n < 10
  · rw [Nat.repr_of_lt hn]
    exact hdigit n
  · rw [Nat.repr_of_ge (by omega), ofString_append]
    exact List.append_ne_nil_of_right_ne_nil _ (hdigit (n % 10))

/-- The name of a temporary is a word. -/
theorem wordBytes_temporaryName (site : Nat) (name : Temporary) :
    WordBytes (temporaryName site name) := by
  rw [temporaryName_eq, wordBytes_append]
  constructor
  · cases name <;> decide
  · intro b hb
    simp [Byte.continuesIdentifier, Byte.isAlphanumeric, isDigit_of_mem_numeral site b hb]

/-- The name of a temporary begins with an underscore. -/
theorem exists_temporaryName_eq (site : Nat) (name : Temporary) :
    ∃ word, temporaryName site name = Byte.underscore :: word := by
  rw [temporaryName_eq]
  cases name <;> exact ⟨_, rfl⟩

/-- The name of a temporary ends in a digit. -/
theorem exists_getLast?_temporaryName (site : Nat) (name : Temporary) :
    ∃ b, (temporaryName site name).getLast? = some b ∧ Byte.isDigit b := by
  have hsome := List.getLast?_eq_some_getLast (numeral_ne_nil site)
  refine ⟨_, ?_, isDigit_of_mem_numeral site _ (List.getLast_mem (numeral_ne_nil site))⟩
  rw [temporaryName_eq, List.getLast?_append, hsome]
  rfl

/-- A string can be told from its bytes. -/
theorem ofString_injective {s t : String} (hsame : ofString s = ofString t) : s = t := by
  have hbytes (s : String) : (ofString s).toByteArray = s.toByteArray := String.utf8Encode_toList
  rw [← String.toByteArray_inj, ← hbytes, ← hbytes, hsame]

/-- No other site has the name. -/
theorem site_eq_of_temporaryName_eq {site site' : Nat} {name name' : Temporary}
    (hsame : temporaryName site name = temporaryName site' name') : site = site' := by
  have hlength : (nameStem name).length = (nameStem name').length := by
    cases name <;> cases name' <;> decide
  rw [temporaryName_eq, temporaryName_eq] at hsame
  have hnumeral := ofString_injective (List.append_inj_right hsame hlength)
  rw [Nat.toString_eq_ofList_toDigits, Nat.toString_eq_ofList_toDigits] at hnumeral
  rw [← @Nat.ofDigitChars_ten_toDigits site, String.ofList_injective hnumeral,
    Nat.ofDigitChars_ten_toDigits]

end PlainSync.Source
